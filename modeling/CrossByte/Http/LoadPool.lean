import CrossByte.Lib.Runs

/-!
# The load pool

`LoadPool` runs loads on threads of its own: `run` counts a job, queues it and releases the
signal once, starting a thread when those waiting are too few; a thread waits for the signal,
takes a job off the queue and runs it, and ends when its wait runs out with nothing queued or
when there are more threads than `maxThreads` allows.

A `Turn` is one section under the lock, one operation of the queue or of the signal, the start
of a thread or the end of a job, of any call or thread; `maxThreads` may change and a wait may
run out at any turn.  Every interleaving is a list of turns.

## Main results

* `Books`: what the counts count, in every state.  The signal and the threads woken by it are as
  many as the jobs queued, less those of calls that have not released it yet.
* `every_job_once`: no job is run twice or out of order, no more run at once than the limit, a
  thread woken finds its job, and none is left when every thread has come to rest.
-/

namespace CrossByte

namespace LoadPool

/-- Where a call of `run`, or a thread of the pool, is. -/
inductive Phase
  /-- In `run`, past its section: the job counted, and a thread to start or not. -/
  | counted (job : ℕ) (start : Bool)
  /-- In `run`, past `__jobs.add`. -/
  | queued (start : Bool)
  /-- In `run`, past `__signal.release`, at `Thread.create`. -/
  | creating
  /-- Returned, or ended. -/
  | away
  /-- At the head of the loop of `__work`. -/
  | fresh
  /-- At `__signal.wait`. -/
  | waiting
  /-- The wait returned. -/
  | back (woken : Bool)
  /-- One thread too many, at the `__signal.release` it ends with. -/
  | surplus
  /-- At `__jobs.pop`. -/
  | claimed
  | running (job : ℕ)
  deriving DecidableEq, Repr

/-- One step of the pool. -/
inductive Turn
  /-- A call of `run`: its section under the lock. -/
  | run
  /-- The next step of a call or of a thread. -/
  | go (i : ℕ)
  /-- A thread's wait runs out. -/
  | timeout (i : ℕ)
  | setMaxThreads (n : ℤ)
  deriving DecidableEq

end LoadPool

open LoadPool

/-- The pool, with the calls and threads in it.  Jobs are numbered as they are given. -/
structure LoadPool where
  maxThreads : ℤ
  /-- `__jobs`, the next to pop first. -/
  jobs : List ℕ
  /-- The releases `__signal` holds. -/
  signal : ℕ
  threads : ℤ
  idle : ℤ
  queued : ℤ
  started : ℤ
  phases : List Phase
  /-- The jobs given so far. -/
  given : ℕ
  /-- The times `__queued` was counted down. -/
  claims : ℕ
  /-- The jobs queued so far, in order. -/
  added : List ℕ
  /-- The jobs popped and run so far, in order. -/
  ran : List ℕ

namespace LoadPool

def new (maxThreads : ℤ) : LoadPool := ⟨maxThreads, [], 0, 0, 0, 0, 0, [], 0, 0, [], []⟩

def limit (s : LoadPool) : ℤ := if s.maxThreads < 1 then 1 else s.maxThreads

/-- A call or thread comes to another phase. -/
def goTo (s : LoadPool) (i : ℕ) (p : Phase) : LoadPool := { s with phases := s.phases.set i p }

/-- The section of `run`. -/
def run (s : LoadPool) : LoadPool :=
  let queued := s.queued + 1
  let start : Bool := s.idle < queued ∧ s.threads < s.limit
  { s with
    queued
    threads := if start then s.threads + 1 else s.threads
    started := if start then s.started + 1 else s.started
    given := s.given + 1
    phases := s.phases ++ [.counted s.given start] }

/-- The section of `__work` after its wait. -/
def wake (s : LoadPool) (i : ℕ) (woken : Bool) : LoadPool :=
  if !woken then
    if s.queued = 0 then { s.goTo i .away with idle := s.idle - 1, threads := s.threads - 1 }
    -- a load came as the wait ran out: back for its release
    else { s.goTo i .fresh with idle := s.idle - 1 }
  else if s.limit < s.threads then
    { s.goTo i .surplus with idle := s.idle - 1, threads := s.threads - 1 }
  else
    { s.goTo i .claimed with
      idle := s.idle - 1, queued := s.queued - 1, claims := s.claims + 1 }

/-- `__jobs.pop(false)`, and the job it answers. -/
def pop (s : LoadPool) (i : ℕ) : LoadPool :=
  match s.jobs with
  | [] => s.goTo i .fresh
  | job :: rest => { s.goTo i (.running job) with jobs := rest, ran := s.ran ++ [job] }

/-- The next step of a call or thread in a phase. -/
def advance (s : LoadPool) (i : ℕ) : Phase → LoadPool
  | .counted job start =>
    { s.goTo i (.queued start) with jobs := s.jobs ++ [job], added := s.added ++ [job] }
  | .queued start =>
    { s.goTo i (if start then .creating else .away) with signal := s.signal + 1 }
  | .creating => { s with phases := s.phases.set i .away ++ [.fresh] }
  | .away => s
  | .fresh => { s.goTo i .waiting with idle := s.idle + 1 }
  | .waiting => if 0 < s.signal then { s.goTo i (.back true) with signal := s.signal - 1 } else s
  | .back woken => s.wake i woken
  | .surplus => { s.goTo i .away with signal := s.signal + 1 }
  | .claimed => s.pop i
  | .running _ => s.goTo i .fresh

def step (s : LoadPool) : Turn → LoadPool
  | .run => s.run
  | .go i =>
    match s.phases[i]? with
    | some p => s.advance i p
    | none => s
  | .timeout i => if s.phases[i]? = some .waiting then s.goTo i (.back false) else s
  | .setMaxThreads n => { s with maxThreads := n }

/-! ## What the phases count -/

/-- A thread of the pool, counted in `__threads`, started or about to be. -/
def Phase.thread : Phase → ℤ
  | .counted _ start | .queued start => if start then 1 else 0
  | .creating | .fresh | .waiting | .back _ | .claimed | .running _ => 1
  | .away | .surplus => 0

/-- Between the two sections of `__work`. -/
def Phase.between : Phase → ℤ
  | .waiting | .back _ => 1
  | _ => 0

/-- With a job that is counted in `__queued` and that no release in the signal stands for. -/
def Phase.owes : Phase → ℤ
  | .counted _ _ | .queued _ | .back true | .surplus => 1
  | _ => 0

/-- With a job in the queue that no release in the signal stands for. -/
def Phase.holds : Phase → ℤ
  | .queued _ | .back true | .surplus | .claimed => 1
  | _ => 0

/-- About to queue a job. -/
def Phase.brings (job : ℕ) : Phase → ℤ
  | .counted j _ => if j = job then 1 else 0
  | _ => 0

def Phase.runs : Phase → ℤ
  | .running _ => 1
  | _ => 0

theorem Phase.between_le_thread (p : Phase) : p.between ≤ p.thread := by
  cases p with
  | counted job start => cases start <;> simp [between, thread]
  | queued start => cases start <;> simp [between, thread]
  | _ => simp [between, thread]

theorem Phase.runs_le_thread (p : Phase) : p.runs ≤ p.thread := by
  cases p with
  | counted job start => cases start <;> simp [runs, thread]
  | queued start => cases start <;> simp [runs, thread]
  | _ => simp [runs, thread]

theorem Phase.thread_nonneg (p : Phase) : 0 ≤ p.thread := by
  refine le_trans ?_ p.between_le_thread
  cases p <;> simp [between]

theorem Phase.owes_nonneg (p : Phase) : 0 ≤ p.owes := by
  cases p with
  | back woken => cases woken <;> simp [owes]
  | _ => simp [owes]

theorem Phase.holds_nonneg (p : Phase) : 0 ≤ p.holds := by
  cases p with
  | back woken => cases woken <;> simp [holds]
  | _ => simp [holds]

theorem Phase.brings_nonneg (job : ℕ) (p : Phase) : 0 ≤ p.brings job := by
  cases p with
  | counted j start =>
    simp only [brings]
    split <;> omega
  | _ => simp [brings]

/-- The sum of a measure of the phases. -/
def total (f : Phase → ℤ) (s : LoadPool) : ℤ := (s.phases.map f).sum

variable {f : Phase → ℤ}

theorem total_set {l : List Phase} {i : ℕ} {p : Phase} (h : l[i]? = some p)
    (p' : Phase) : ((l.set i p').map f).sum = (l.map f).sum + (f p' - f p) := by
  obtain ⟨hi, rfl⟩ := List.getElem?_eq_some_iff.1 h
  have hsum := List.sum_set' (l.map f) i (f p')
  rw [dif_pos (by simpa using hi)] at hsum
  rw [List.map_set, hsum, List.getElem_map]
  ring

theorem le_total (hf : ∀ p, 0 ≤ f p) {s : LoadPool} {i : ℕ} {p : Phase}
    (h : s.phases[i]? = some p) : f p ≤ s.total f := by
  refine List.single_le_sum (fun x hx => ?_) _ (List.mem_map_of_mem (List.mem_of_getElem? h))
  obtain ⟨q, -, rfl⟩ := List.mem_map.1 hx
  exact hf q

theorem total_nonneg (hf : ∀ p, 0 ≤ f p) (s : LoadPool) : 0 ≤ s.total f := by
  refine List.sum_nonneg fun x hx => ?_
  obtain ⟨q, -, rfl⟩ := List.mem_map.1 hx
  exact hf q

/-- **The pool's books are in order.** -/
structure Books (s : LoadPool) : Prop where
  threads : s.threads = s.total Phase.thread
  idle : s.idle = s.total Phase.between
  queued : s.queued = s.signal + s.total Phase.owes
  jobs : (s.jobs.length : ℤ) = s.signal + s.total Phase.holds
  claims : s.queued + s.claims = s.given
  added : s.added = s.ran ++ s.jobs
  once : ∀ job, (s.added.count job : ℤ) + s.total (Phase.brings job) =
    if job < s.given then 1 else 0
  /-- A load that waits has a thread. -/
  served : 0 < s.queued → 0 < s.threads

theorem books_new (maxThreads : ℤ) : (new maxThreads).Books where
  threads := rfl
  idle := rfl
  queued := rfl
  jobs := rfl
  claims := rfl
  added := rfl
  once job := by simp [new, total]
  served h := by simp [new] at h

theorem one_le_limit (s : LoadPool) : 1 ≤ s.limit := by
  unfold limit
  split <;> omega

variable {s s' : LoadPool} {i : ℕ} {p p' : Phase}

section

variable (h : s.Books)

include h

/-- One call or thread has moved, and the books with it. -/
theorem Books.move (hi : s.phases[i]? = some p) (hphases : s'.phases = s.phases.set i p')
    (hthreads : s'.threads = s.threads + (p'.thread - p.thread))
    (hidle : s'.idle = s.idle + (p'.between - p.between))
    (hqueued : s'.queued - s'.signal = s.queued - s.signal + (p'.owes - p.owes))
    (hjobs : (s'.jobs.length : ℤ) - s'.signal = s.jobs.length - s.signal + (p'.holds - p.holds))
    (hclaims : s'.queued + s'.claims = s.queued + s.claims) (hgiven : s'.given = s.given)
    (hadded : s'.added = s'.ran ++ s'.jobs)
    (honce : ∀ job, (s'.added.count job : ℤ) + p'.brings job = s.added.count job + p.brings job)
    (hserved : 0 < s'.queued → 0 < s'.threads) : s'.Books := by
  have htotal : ∀ f : Phase → ℤ, s'.total f = s.total f + (f p' - f p) := fun f => by
    rw [total, hphases, total_set hi]
    rfl
  refine ⟨?_, ?_, ?_, ?_, ?_, hadded, fun job => ?_, hserved⟩
  · rw [hthreads, htotal, h.threads]
  · rw [hidle, htotal, h.idle]
  · rw [htotal]
    have := h.queued
    omega
  · rw [htotal]
    have := h.jobs
    omega
  · rw [hclaims, hgiven, h.claims]
  · rw [htotal]
    have := h.once job
    have := honce job
    omega

theorem Books.run : s.run.Books := by
  have htotal : ∀ f : Phase → ℤ, s.run.total f = s.total f +
      f (.counted s.given (decide (s.idle < s.queued + 1 ∧ s.threads < s.limit))) := fun f => by
    simp [total, LoadPool.run]
  have hlimit := s.one_le_limit
  have hidle : s.idle ≤ s.total Phase.thread := by
    rw [h.idle]
    exact List.sum_le_sum fun p _ => p.between_le_thread
  refine ⟨?_, ?_, ?_, ?_, ?_, h.added, fun job => ?_, fun _ => ?_⟩
  · rw [htotal, ← h.threads]
    simp only [LoadPool.run, Phase.thread]
    split_ifs <;> omega
  · rw [htotal, ← h.idle]
    simp [LoadPool.run, Phase.between]
  · rw [htotal]
    have := h.queued
    simp only [LoadPool.run, Phase.owes]
    omega
  · rw [htotal, ← add_assoc, show (s.run.signal : ℤ) = s.signal from rfl, ← h.jobs]
    simp [LoadPool.run, Phase.holds]
  · have := h.claims
    simp only [LoadPool.run]
    omega
  · rw [htotal, ← add_assoc]
    change (s.added.count job : ℤ) + s.total (Phase.brings job) + _ = if job < s.given + 1 then 1 else 0
    rw [h.once job]
    simp only [Phase.brings]
    split_ifs <;> omega
  · -- with no thread none is idle, so this call starts one
    simp only [LoadPool.run]
    by_cases hstart : s.idle < s.queued + 1 ∧ s.threads < s.limit
    · have := total_nonneg Phase.thread_nonneg s
      rw [if_pos (decide_eq_true hstart), h.threads]
      omega
    · have := h.threads
      have := h.queued
      have := total_nonneg Phase.owes_nonneg s
      omega

theorem Books.wake {woken : Bool} (hi : s.phases[i]? = some (.back woken)) :
    (s.wake i woken).Books := by
  have hlimit := s.one_le_limit
  have hserved := h.served
  unfold LoadPool.wake
  cases woken with
  | false =>
    by_cases hnone : s.queued = 0
    · rw [if_pos hnone]
      exact h.move hi rfl rfl rfl (by simp [goTo, Phase.owes]) (by simp [goTo, Phase.holds]) rfl rfl
        h.added (fun _ => rfl) (fun hq => absurd hnone (ne_of_gt hq))
    · rw [if_neg hnone]
      exact h.move hi rfl (by simp [goTo, Phase.thread]) rfl (by simp [goTo, Phase.owes])
        (by simp [goTo, Phase.holds]) rfl rfl h.added (fun _ => rfl) hserved
  | true =>
    rw [if_neg (by simp)]
    by_cases hover : s.limit < s.threads
    · rw [if_pos hover]
      exact h.move hi rfl rfl rfl (by simp [goTo, Phase.owes]) (by simp [goTo, Phase.holds]) rfl rfl
        h.added (fun _ => rfl) (fun _ => by dsimp only; omega)
    · rw [if_neg hover]
      refine h.move hi rfl (by simp [goTo, Phase.thread]) rfl (by simp [goTo, Phase.owes]; omega)
        (by simp [goTo, Phase.holds]) (by push_cast; omega) rfl h.added (fun _ => rfl) fun hq => ?_
      exact hserved (by dsimp only at hq; omega)

theorem Books.jobs_ne_nil (hi : s.phases[i]? = some .claimed) : s.jobs ≠ [] := by
  intro hnil
  have hjobs := h.jobs
  have hle := le_total Phase.holds_nonneg hi
  rw [hnil] at hjobs
  simp only [List.length_nil, Phase.holds] at hjobs hle
  omega

theorem Books.pop (hi : s.phases[i]? = some .claimed) : (s.pop i).Books := by
  unfold LoadPool.pop
  split
  · rename_i hnil
    exact absurd hnil (h.jobs_ne_nil hi)
  · rename_i job rest hjobs
    refine h.move hi rfl (by simp [goTo, Phase.thread]) (by simp [goTo, Phase.between])
      (by simp [goTo, Phase.owes]) ?_ rfl rfl ?_ (fun _ => rfl) h.served
    · simp only [goTo, hjobs, Phase.holds, List.length_cons]
      omega
    · change s.added = s.ran ++ [job] ++ rest
      rw [h.added, hjobs, List.append_assoc]
      rfl

theorem Books.create (hi : s.phases[i]? = some .creating) : (s.advance i .creating).Books := by
  have htotal : ∀ f : Phase → ℤ, (s.advance i .creating).total f =
      s.total f + (f .away - f .creating) + f .fresh := fun f => by
    simp only [advance, total, List.map_append, List.sum_append, total_set hi]
    simp
  refine ⟨?_, ?_, ?_, ?_, h.claims, h.added, fun job => ?_, h.served⟩ <;> rw [htotal]
  · simp [advance, h.threads, Phase.thread]
  · simp [advance, h.idle, Phase.between]
  · simp [advance, h.queued, Phase.owes]
  · simp [advance, h.jobs, Phase.holds]
  · change (s.added.count job : ℤ) + (s.total (Phase.brings job) + (0 - 0) + 0) =
      if job < s.given then 1 else 0
    rw [← h.once job]
    ring

/-- A move that leaves the queue and the counts of jobs and threads: what it releases or takes from
the signal is what the call or thread stood for. -/
theorem Books.pass (hi : s.phases[i]? = some p) (idle : ℤ) (signal : ℕ)
    (hthread : p'.thread = p.thread) (hidle : idle = s.idle + (p'.between - p.between))
    (howes : signal + p'.owes = s.signal + p.owes) (hholds : signal + p'.holds = s.signal + p.holds)
    (hbrings : ∀ job, p'.brings job = p.brings job) :
    ({ s.goTo i p' with idle := idle, signal := signal } : LoadPool).Books := by
  refine h.move hi rfl ?_ hidle ?_ ?_ rfl rfl h.added (fun job => ?_) h.served
  · change s.threads = s.threads + (p'.thread - p.thread)
    rw [hthread, sub_self, add_zero]
  · change s.queued - signal = s.queued - s.signal + (p'.owes - p.owes)
    omega
  · change (s.jobs.length : ℤ) - signal = s.jobs.length - s.signal + (p'.holds - p.holds)
    omega
  · exact congrArg _ (hbrings job)

theorem Books.advance (hi : s.phases[i]? = some p) : (s.advance i p).Books := by
  cases p with
  | counted job start =>
    refine h.move hi rfl (by simp [LoadPool.advance, goTo, Phase.thread])
      (by simp [LoadPool.advance, goTo, Phase.between])
      (by simp [LoadPool.advance, goTo, Phase.owes]) ?_ rfl rfl ?_ (fun j => ?_) h.served
    · simp [LoadPool.advance, goTo, Phase.holds]
      omega
    · change s.added ++ [job] = s.ran ++ (s.jobs ++ [job])
      rw [h.added, List.append_assoc]
    · simp only [LoadPool.advance, Phase.brings]
      split_ifs <;> simp_all
  | queued start =>
    cases start <;>
      exact h.pass hi s.idle (s.signal + 1) rfl (by simp [Phase.between]) (by simp [Phase.owes])
        (by simp [Phase.holds]) fun _ => rfl
  | creating => exact h.create hi
  | away => exact h
  | fresh =>
    exact h.pass hi (s.idle + 1) s.signal rfl (by simp [Phase.between]) rfl rfl fun _ => rfl
  | waiting =>
    rw [LoadPool.advance]
    split
    · refine h.pass hi s.idle (s.signal - 1) rfl (by simp [Phase.between]) ?_ ?_ fun _ => rfl
      · simp only [Phase.owes]
        omega
      · simp only [Phase.holds]
        omega
    · exact h
  | back woken => exact h.wake hi
  | surplus =>
    exact h.pass hi s.idle (s.signal + 1) rfl (by simp [Phase.between]) (by simp [Phase.owes])
      (by simp [Phase.holds]) fun _ => rfl
  | claimed => exact h.pop hi
  | running job => exact h.pass hi s.idle s.signal rfl (by simp [Phase.between]) rfl rfl fun _ => rfl

/-- **Every turn keeps the books in order.** -/
theorem Books.step (t : Turn) : (s.step t).Books := by
  cases t with
  | run => exact h.run
  | go i =>
    rw [LoadPool.step]
    split
    · rename_i p hi
      exact h.advance hi
    · exact h
  | timeout i =>
    rw [LoadPool.step]
    split
    · rename_i hi
      exact h.move hi rfl (by simp [goTo, Phase.thread]) (by simp [goTo, Phase.between])
        (by simp [goTo, Phase.owes]) (by simp [goTo, Phase.holds]) rfl rfl h.added (fun _ => rfl)
        h.served
    · exact h
  | setMaxThreads n => exact ⟨h.1, h.2, h.3, h.4, h.5, h.6, h.7, h.8⟩

end

/-! ## The results -/

/-- In `run`. -/
def Phase.calling : Phase → Bool
  | .counted _ _ | .queued _ | .creating => true
  | _ => false

/-- Whether a call or thread can take a step other than a timeout. -/
def canGo (s : LoadPool) : Phase → Bool
  | .away => false
  | .waiting => 0 < s.signal
  | _ => true

/-- Nothing is under way: no call of `run`, no job, and no step of a thread but a timeout. -/
def Quiet (s : LoadPool) : Prop :=
  ∀ p ∈ s.phases, p.calling = false ∧ p.runs = 0 ∧ s.canGo p = false

instance (s : LoadPool) : Decidable s.Quiet := inferInstanceAs (Decidable (∀ p ∈ s.phases, _))

theorem Books.jobs_eq_nil (h : s.Books) (hquiet : s.Quiet) : s.jobs = [] := by
  have hzero : ∀ f : Phase → ℤ, f .away = 0 → f .waiting = 0 → s.total f = 0 := by
    intro f haway hwaiting
    refine List.sum_eq_zero fun x hx => ?_
    obtain ⟨p, hp, rfl⟩ := List.mem_map.1 hx
    obtain ⟨hcall, hrun, hgo⟩ := hquiet p hp
    cases p <;> simp_all [Phase.calling, canGo, Phase.runs]
  have hqueued := h.queued
  have hjobs := h.jobs
  rw [hzero _ rfl rfl] at hqueued hjobs
  by_contra hne
  have hpos := List.length_pos_of_ne_nil hne
  -- a load that waits has a thread, which is at its wait, and the signal is there for it
  have hthreads := h.served (by omega)
  rw [h.threads] at hthreads
  obtain ⟨x, hx, hx1⟩ : ∃ p ∈ s.phases, p.thread ≠ 0 := by
    by_contra hall
    push Not at hall
    have : s.total Phase.thread = 0 := List.sum_eq_zero fun x hx => by
      obtain ⟨p, hp, rfl⟩ := List.mem_map.1 hx
      exact hall p hp
    omega
  obtain ⟨hcall, hrun, hgo⟩ := hquiet x hx
  cases x <;> simp_all [Phase.calling, canGo, Phase.runs, Phase.thread]

theorem Books.ran_nodup (h : s.Books) : s.ran.Nodup := by
  refine List.nodup_iff_count_le_one.2 fun job => ?_
  have honce := h.once job
  have hbrings := total_nonneg (Phase.brings_nonneg job) s
  rw [h.added, List.count_append] at honce
  split_ifs at honce <;> push_cast at honce <;> omega

/-- A turn that changes no limit starts no thread past it. -/
theorem step_threads_le {t : Turn} (ht : ∀ n, t ≠ .setMaxThreads n)
    (hle : s.threads ≤ s.limit) : (s.step t).threads ≤ s.limit ∧ (s.step t).maxThreads = s.maxThreads := by
  cases t with
  | run =>
    refine ⟨?_, rfl⟩
    simp only [LoadPool.step, LoadPool.run]
    split_ifs with hstart
    · have := (of_decide_eq_true hstart).2
      omega
    · exact hle
  | go i =>
    rw [LoadPool.step]
    split
    · rename_i p hi
      cases p with
      | waiting =>
        rw [LoadPool.advance]
        split <;> exact ⟨hle, rfl⟩
      | back woken =>
        simp only [LoadPool.advance, LoadPool.wake]
        split_ifs <;> refine ⟨?_, rfl⟩ <;> simp only [goTo] <;> omega
      | claimed =>
        simp only [LoadPool.advance, LoadPool.pop]
        split <;> exact ⟨hle, rfl⟩
      | _ => exact ⟨hle, rfl⟩
    · exact ⟨hle, rfl⟩
  | timeout i =>
    rw [LoadPool.step]
    split <;> exact ⟨hle, rfl⟩
  | setMaxThreads n => exact absurd rfl (ht n)

/-- With `maxThreads` left alone there are never more threads than the limit. -/
theorem threads_le_limit (maxThreads : ℤ) {turns : List Turn}
    (hturns : ∀ n, .setMaxThreads n ∉ turns) :
    (Runs.run step (new maxThreads) turns).threads ≤ max 1 maxThreads := by
  have hlimit : ∀ s : LoadPool, s.limit = max 1 s.maxThreads := fun s => by
    unfold limit
    split <;> omega
  have hrun : Runs.Along step (fun _ t => ∀ n, t ≠ .setMaxThreads n) (new maxThreads) turns := by
    generalize new maxThreads = s
    induction turns generalizing s with
    | nil => trivial
    | cons t turns ih =>
      refine ⟨fun n heq => hturns n (heq ▸ List.mem_cons_self), ih (fun n hn => ?_) _⟩
      exact hturns n (List.mem_cons_of_mem _ hn)
  have hinv := Runs.run_invariant_along
    (P := fun s : LoadPool => s.maxThreads = maxThreads ∧ s.threads ≤ max 1 maxThreads)
    ⟨rfl, show (0 : ℤ) ≤ _ by omega⟩ (fun s t hs ht => ?_) hrun
  · exact hinv.2
  · obtain ⟨hmax, hle⟩ := hs
    rw [← hmax, ← hlimit s] at hle
    obtain ⟨hle', hmax'⟩ := step_threads_le ht hle
    exact ⟨hmax'.trans hmax, hle'.trans (by rw [hlimit, hmax])⟩

/-- **Every load is run once and none is stranded**, in every interleaving of calls, threads and
timeouts, `maxThreads` changing at any moment: the jobs run are those queued first, in order, and
none twice; while `maxThreads` stays as it is, no more run at once than it allows; a job given is
counted in `__queued` until a thread claims it; `__idle` counts the threads between their two
sections; a thread that was woken finds a job; and when nothing is under way none is queued. -/
theorem every_job_once (maxThreads : ℤ) (turns : List Turn) :
    let s := Runs.run step (new maxThreads) turns
    s.ran.Nodup ∧ s.added = s.ran ++ s.jobs ∧
      ((∀ n, .setMaxThreads n ∉ turns) → s.total Phase.runs ≤ max 1 maxThreads) ∧
      s.queued + s.claims = s.given ∧ s.idle = s.total Phase.between ∧
      (∀ i : ℕ, s.phases[i]? = some Phase.claimed → s.jobs ≠ []) ∧ (s.Quiet → s.jobs = []) := by
  intro s
  have h : s.Books := Runs.run_invariant (books_new maxThreads) (fun _ t hs => hs.step t) turns
  refine ⟨h.ran_nodup, h.added, fun hturns => ?_, h.claims, h.idle, fun i hi => h.jobs_ne_nil hi,
    h.jobs_eq_nil⟩
  calc s.total Phase.runs ≤ s.total Phase.thread := List.sum_le_sum fun p _ => p.runs_le_thread
    _ = s.threads := h.threads.symm
    _ ≤ max 1 maxThreads := threads_le_limit maxThreads hturns

/-- Two loads on one thread, to the end of its wait. -/
def twoLoads : List Turn :=
  [.run, .run, .go 0, .go 1, .go 0, .go 1, .go 0, .go 2, .go 2, .go 2, .go 2, .go 2, .go 2, .go 2,
    .go 2, .go 2, .go 2, .go 2]

theorem twoLoads_run :
    (Runs.run step (new 1) twoLoads).ran = [0, 1] ∧
      (Runs.run step (new 1) twoLoads).jobs = [] ∧
      (Runs.run step (new 1) twoLoads).total Phase.runs ≤ max 1 1 :=
  ⟨by decide, (every_job_once 1 twoLoads).2.2.2.2.2.2 (by decide),
    (every_job_once 1 twoLoads).2.2.1 (by simp [twoLoads])⟩

end LoadPool

end CrossByte
