import CrossByte.Errors
import CrossByte.Lib.Runs

/-!
# Schema migrations

`SchemaMigrator.migrate` takes the lock, reads which versions the bookkeeping table has, and
applies the registered migrations it does not have, in ascending order: the statements of each, its
row, and the commit, in one transaction.  What a seam throws ends the run, after a rollback and a
release of the lock.

A `Turn` starts a call of some migrator, or lets the seam a call has come to return or throw.  A
seam that throws may have taken effect all the same: a statement that reached the database, a
commit that went through, a lock that was released.  A lock that throws is not taken.  Any number
of calls, of migrators with any sets of migrations, come in any order; each has a connection of
its own, and a transaction on it is seen by nobody before it commits.

The writes committed are marked with the call they come from, which nothing reads.

## Main results

* `Kept`: what holds between turns.  Only the holder of the lock is past it, so what it read of the
  table is what the table still has when it commits.
* `each_once_in_order`: what is committed is the migrations recorded, whole and once each, and in
  ascending order if nobody allows otherwise; and what a call that is over has done.
-/

namespace CrossByte

namespace SchemaMigrator

/-! ## Migrations -/

/-- `Migration`: its statements stand for its body, whether statements or a function. -/
structure Migration where
  version : ℕ
  name : String
  checksum : Option String
  statements : List String
  /-- Versions start at 1. -/
  version_pos : 1 ≤ version

/-- `AppliedMigration`: a row of the bookkeeping table. -/
structure AppliedMigration where
  version : ℕ
  name : String
  checksum : Option String
  deriving DecidableEq

def Migration.row (m : Migration) : AppliedMigration := ⟨m.version, m.name, m.checksum⟩

/-- What a call throws. -/
inductive Failure
  /-- What a seam threw. -/
  | seam (text : String)
  | checksum (m : Migration) (row : AppliedMigration)
  | order (m : Migration) (highestApplied : ℕ)
  | failed (m : Migration) (text : String)

def Failure.message : Failure → String
  | .seam text => text
  | .checksum m _ => "Migration " ++ toString m.version ++ " (\"" ++ m.name ++
      "\") has changed since it was applied. Editing an applied migration does not re-run it, " ++
      "so this database and any that ran the original are now different. " ++
      "Add a new migration instead."
  | .order m highestApplied => "Migration " ++ toString m.version ++ " (\"" ++ m.name ++
      "\") is numbered below the applied version " ++ toString highestApplied ++
      ". Applying it now produces a schema no database that migrated in order will ever have. " ++
      "Renumber it above " ++ toString highestApplied ++ ", or set allowOutOfOrder."
  | .failed m text =>
    "Migration " ++ toString m.version ++ " (\"" ++ m.name ++ "\") failed: " ++ text

/-- A checksum that disagrees, or a version below one applied. -/
def Failure.refusal : Failure → Bool
  | .checksum _ _ | .order _ _ => true
  | .seam _ | .failed _ _ => false

/-- Ascending in their versions. -/
def Ascending (ms : List Migration) : Prop := (ms.map Migration.version).Pairwise (· < ·)

/-- `SchemaMigrator`: what is registered, by version, and what its options are. -/
structure Migrator where
  migrations : List Migration
  transactional : Bool
  locking : Bool
  allowOutOfOrder : Bool
  ascending : Ascending migrations

/-- A migration put among others by its version. -/
def insertByVersion (m : Migration) (ms : List Migration) : List Migration :=
  ms.takeWhile (·.version < m.version) ++ m :: ms.dropWhile (·.version < m.version)

variable {ms : List Migration} {outcome : Except Failure Report} {m : Migration}

theorem ascending_insertByVersion (h : Ascending ms)
    (hm : m.version ∉ ms.map Migration.version) : Ascending (insertByVersion m ms) := by
  have heq : (insertByVersion m ms).map Migration.version =
      (ms.map Migration.version).orderedInsert (· ≤ ·) m.version := by
    simp [insertByVersion, List.orderedInsert_eq_take_drop, List.takeWhile_map, List.dropWhile_map,
      Function.comp_def]
  have hnodup := (List.perm_orderedInsert (· ≤ ·) m.version _).nodup_iff.2
    (List.nodup_cons.2 ⟨hm, h.imp ne_of_lt⟩)
  rw [Ascending, heq]
  exact (((h.imp le_of_lt).orderedInsert m.version _).and hnodup).imp fun h =>
    lt_of_le_of_ne h.1 h.2

/-- `add`: refuses a version that is there. -/
def Migrator.add (g : Migrator) (m : Migration) : Except Thrown Migrator :=
  if h : m.version ∈ g.migrations.map Migration.version then
    .error (.argumentError ("Duplicate migration version " ++ toString m.version ++ "."))
  else .ok { g with
    migrations := insertByVersion m g.migrations
    ascending := ascending_insertByVersion g.ascending h }

/-! ## What is pending -/

/-- `__readApplied`: the last row of a version. -/
def appliedOf (rows : List AppliedMigration) (version : ℕ) : Option AppliedMigration :=
  rows.reverse.find? (·.version = version)

/-- The highest version applied; 0 if none is. -/
def highestApplied (rows : List AppliedMigration) : ℕ :=
  rows.foldl (fun highest row => max highest row.version) 0

/-- Both have a fingerprint, and not the same. -/
def drifted (m : Migration) (row : AppliedMigration) : Bool :=
  m.checksum.isSome && row.checksum.isSome && m.checksum ≠ row.checksum

/-- The migrations with no row; one that drifted from its row throws. -/
def unrecorded (rows : List AppliedMigration) : List Migration → Except Failure (List Migration)
  | [] => .ok []
  | m :: ms =>
    match appliedOf rows m.version with
    | none => (unrecorded rows ms).map (m :: ·)
    | some row => if drifted m row then .error (.checksum m row) else unrecorded rows ms

def Migrator.pendingFrom (g : Migrator) (rows : List AppliedMigration) :
    Except Failure (List Migration) :=
  match unrecorded rows g.migrations with
  | .error failure => .error failure
  | .ok pending =>
    match if g.allowOutOfOrder then none else pending.find? (·.version < highestApplied rows) with
    | some m => .error (.order m (highestApplied rows))
    | none => .ok pending

section Pending

variable {rows : List AppliedMigration} {g : Migrator} {todo : List Migration}

theorem appliedOf_eq_none_iff {version : ℕ} :
    appliedOf rows version = none ↔ version ∉ rows.map AppliedMigration.version := by
  simp [appliedOf]

theorem le_highestApplied {row : AppliedMigration} (h : row ∈ rows) :
    row.version ≤ highestApplied rows := by
  have hfold : ∀ (rows : List AppliedMigration) (start : ℕ),
      start ≤ rows.foldl (fun highest row => max highest row.version) start ∧
      ∀ row ∈ rows,
        row.version ≤ rows.foldl (fun highest row => max highest row.version) start := by
    intro rows
    induction rows with
    | nil => simp
    | cons a rows ih =>
      intro start
      obtain ⟨hstart, hrows⟩ := ih (max start a.version)
      refine ⟨(le_max_left _ _).trans hstart, fun row hrow => ?_⟩
      rcases List.mem_cons.1 hrow with rfl | hrow
      · exact (le_max_right _ _).trans hstart
      · exact hrows row hrow
  exact (hfold rows 0).2 row h

theorem unrecorded_eq (h : unrecorded rows ms = .ok todo) :
    todo = ms.filter (·.version ∉ rows.map AppliedMigration.version) := by
  induction ms generalizing todo with
  | nil => simpa [unrecorded] using h.symm
  | cons m ms ih =>
    unfold unrecorded at h
    split at h
    · rename_i hnone
      have hm := appliedOf_eq_none_iff.1 hnone
      cases hrest : unrecorded rows ms with
      | error e => simp [hrest, Except.map] at h
      | ok rest =>
        rw [hrest] at h
        obtain rfl : m :: rest = todo := Except.ok.inj h
        rw [List.filter_cons_of_pos (by simpa using hm), ← ih hrest]
    · rename_i row hrow
      have hm : m.version ∈ rows.map AppliedMigration.version := by
        by_contra hmem
        simp [appliedOf_eq_none_iff.2 hmem] at hrow
      split at h
      · cases h
      · rw [List.filter_cons_of_neg (by simpa using hm)]
        exact ih h

/-- What is pending is what is registered and not recorded, and, unless it is allowed out of order,
above all that is recorded. -/
theorem pendingFrom_spec (h : g.pendingFrom rows = .ok todo) :
    todo = g.migrations.filter (·.version ∉ rows.map AppliedMigration.version) ∧
    (g.allowOutOfOrder = false → ∀ m ∈ todo, ∀ row ∈ rows, row.version < m.version) := by
  unfold Migrator.pendingFrom at h
  split at h
  · cases h
  · rename_i pending hpending
    split at h
    · cases h
    · rename_i hfind
      obtain rfl := Except.ok.inj h
      have hfilter := unrecorded_eq hpending
      refine ⟨hfilter, fun hout m hm row hrow => ?_⟩
      rw [hout] at hfind
      have hge : ¬ m.version < highestApplied rows := by
        have := List.find?_eq_none.1 hfind m hm
        simpa using this
      have hne : m.version ≠ row.version := by
        rw [hfilter] at hm
        have := (List.mem_filter.1 hm).2
        simp only [decide_eq_true_eq, List.mem_map, not_exists, not_and] at this
        exact fun heq => this row hrow heq.symm
      have := le_highestApplied hrow
      omega

end Pending

/-! ## Calls -/

/-- What is written to the database. -/
inductive Effect
  | statement (version : ℕ) (sql : String)
  | row (row : AppliedMigration)
  deriving DecidableEq

/-- `MigrationReport`. -/
structure Report where
  applied : List ℕ
  alreadyApplied : ℕ

/-- Where a call is: the seam it comes to next, and what it has in hand. -/
inductive Point
  | lock
  | ensureTable
  | readApplied
  | begin_ (m : Migration) (todo : List Migration) (report : Report)
  /-- `execute` of the next statement left, or `recordApplied` when none is. -/
  | apply (m : Migration) (left : List String) (todo : List Migration) (report : Report)
  | commit (m : Migration) (todo : List Migration) (report : Report)
  | rollback (m : Migration) (text : String)
  | unlock (outcome : Except Failure Report)
  | ended (outcome : Except Failure Report)
  /-- `pending`, before its two seams and after them. -/
  | pendingTable
  | pendingRead
  | listed (outcome : Except Failure (List Migration))

/-- A call: its migrator, the transaction on its connection, whether it took the lock, and how
often it asked to have it released. -/
structure Call where
  migrator : Migrator
  point : Point
  transaction : Option (List Effect)
  taken : Bool
  asked : ℕ

/-- The writes committed, each with the call it came from; the holder of the lock; the calls. -/
structure State where
  committed : List (ℕ × Effect)
  holder : Option ℕ
  calls : ℕ → Option Call

def State.new : State := ⟨[], none, fun _ => none⟩

/-- What a seam does: it returns, or throws, having taken effect or not. -/
inductive Seam
  | returns
  | throws (text : String) (done : Bool)

/-- Whether a seam took effect. -/
def Seam.done : Seam → Bool
  | .returns => true
  | .throws _ done => done

inductive Turn
  | migrate (i : ℕ) (g : Migrator)
  | pending (i : ℕ) (g : Migrator)
  | go (i : ℕ) (seam : Seam)

def rowsOf (writes : List (ℕ × Effect)) : List AppliedMigration :=
  writes.filterMap fun
    | (_, .row row) => some row
    | (_, .statement _ _) => none

namespace Call

variable (c : Call)

/-- At another point. -/
def at_ (point : Point) : Call := { c with point }

/-- The run is over: the lock is to be released, if there is one. -/
def finish (outcome : Except Failure Report) : Call :=
  c.at_ (if c.migrator.locking then .unlock outcome else .ended outcome)

/-- The next migration of `__migrateNow`, or its end. -/
def next (todo : List Migration) (report : Report) : Call :=
  match todo with
  | [] => c.finish (.ok report)
  | m :: todo =>
    c.at_ (if c.migrator.transactional then .begin_ m todo report
      else .apply m m.statements todo report)

/-- A migration is recorded as applied in the report. -/
def applied (m : Migration) (todo : List Migration) (report : Report) : Call :=
  c.next todo { report with applied := report.applied ++ [m.version] }

def fail (m : Migration) (text : String) : Call :=
  if c.migrator.transactional then c.at_ (.rollback m text)
  else c.finish (.error (.failed m text))

end Call

namespace State

variable (s : State)

/-- Call `i` is now `c`. -/
def set (i : ℕ) (c : Call) : State := { s with calls := Function.update s.calls i (some c) }

/-- A write on the connection of a call: into its transaction, or at once. -/
def write (i : ℕ) (c : Call) (e : Effect) : State × Call :=
  match c.transaction with
  | some writes => (s, { c with transaction := some (writes ++ [e]) })
  | none => ({ s with committed := s.committed ++ [(i, e)] }, c)

def commitOf (i : ℕ) (c : Call) : State × Call :=
  ({ s with committed := s.committed ++ (c.transaction.getD []).map (i, ·) },
    { c with transaction := none })

/-- A statement of a migration, or its row. -/
def applyNext (i : ℕ) (c : Call) (m : Migration) (left : List String) (todo : List Migration)
    (report : Report) (seam : Seam) : State :=
  let e : Effect := match left with
    | [] => .row m.row
    | sql :: _ => .statement m.version sql
  let (s, c) := if seam.done then s.write i c e else (s, c)
  match seam, left with
  | .throws text _, _ => s.set i (c.fail m text)
  | .returns, _ :: left => s.set i (c.at_ (.apply m left todo report))
  | .returns, [] =>
    s.set i (if c.migrator.transactional then c.at_ (.commit m todo report)
      else c.applied m todo report)

/-- The seam a call has come to. -/
def go (i : ℕ) (c : Call) (seam : Seam) : State :=
  match c.point, seam with
  | .lock, .throws text _ => s.set i (c.at_ (.ended (.error (.seam text))))
  | .lock, .returns =>
    if s.holder = none then
      { s.set i { c.at_ .ensureTable with taken := true } with holder := some i }
    else s
  | .ensureTable, .throws text _ => s.set i (c.finish (.error (.seam text)))
  | .ensureTable, .returns => s.set i (c.at_ .readApplied)
  | .readApplied, .throws text _ => s.set i (c.finish (.error (.seam text)))
  | .readApplied, .returns =>
    match c.migrator.pendingFrom (rowsOf s.committed) with
    | .error failure => s.set i (c.finish (.error failure))
    | .ok todo => s.set i (c.next todo ⟨[], c.migrator.migrations.length - todo.length⟩)
  | .begin_ _ _ _, .throws text done =>
    let c := if done then { c with transaction := some [] } else c
    s.set i (c.finish (.error (.seam text)))
  | .begin_ m todo report, .returns =>
    s.set i { c.at_ (.apply m m.statements todo report) with transaction := some [] }
  | .apply m left todo report, seam => s.applyNext i c m left todo report seam
  | .commit m todo report, .returns =>
    let (s, c) := s.commitOf i c
    s.set i (c.applied m todo report)
  | .commit m _ _, .throws text done =>
    let (s, c) := if done then s.commitOf i c else (s, c)
    s.set i (c.fail m text)
  | .rollback m text, _ =>
    s.set i ({ c with transaction := none }.finish (.error (.failed m text)))
  | .unlock outcome, seam =>
    let holder := if seam.done then none else s.holder
    { s.set i { c.at_ (.ended outcome) with asked := c.asked + 1 } with holder }
  | .ended _, _ => s
  | .pendingTable, .throws text _ => s.set i (c.at_ (.listed (.error (.seam text))))
  | .pendingTable, .returns => s.set i (c.at_ .pendingRead)
  | .pendingRead, .throws text _ => s.set i (c.at_ (.listed (.error (.seam text))))
  | .pendingRead, .returns =>
    s.set i (c.at_ (.listed (c.migrator.pendingFrom (rowsOf s.committed))))
  | .listed _, _ => s

def call (i : ℕ) (g : Migrator) (point : Point) : State :=
  match s.calls i with
  | none => s.set i ⟨g, point, none, false, 0⟩
  | some _ => s

def step (s : State) : Turn → State
  | .migrate i g => s.call i g (if g.locking then .lock else .ensureTable)
  | .pending i g => s.call i g .pendingTable
  | .go i seam =>
    match s.calls i with
    | some c => s.go i c seam
    | none => s

end State

/-! ## What is committed -/

def Migration.effects (m : Migration) : List Effect :=
  m.statements.map (.statement m.version) ++ [.row m.row]

/-- The writes of a migration, of call `i`. -/
def written (i : ℕ) (m : Migration) : List (ℕ × Effect) := m.effects.map (i, ·)

def recorded (writes : List (ℕ × Effect)) : List ℕ := (rowsOf writes).map AppliedMigration.version

def writesBy (writes : List (ℕ × Effect)) (i : ℕ) : List (ℕ × Effect) := writes.filter (·.1 = i)

section Log

variable {log : List (ℕ × Effect)} {i j : ℕ} {m : Migration}

theorem recorded_append (log' : List (ℕ × Effect)) :
    recorded (log ++ log') = recorded log ++ recorded log' := by
  simp [recorded, rowsOf]

@[simp] theorem recorded_written : recorded (written i m) = [m.version] := by
  have hstatements : ∀ sqls : List String,
      rowsOf ((sqls.map (Effect.statement m.version)).map (i, ·)) = [] := by
    intro sqls
    simp [rowsOf]
  simp only [written, Migration.effects, List.map_append]
  rw [recorded_append, recorded, hstatements]
  rfl

theorem recorded_concat : recorded (log ++ written i m) = recorded log ++ [m.version] := by
  rw [recorded_append, recorded_written]

theorem writesBy_concat_self : writesBy (log ++ written i m) i = writesBy log i ++ written i m := by
  simp [writesBy, written]

theorem writesBy_concat_ne (h : j ≠ i) : writesBy (log ++ written i m) j = writesBy log j := by
  simp [writesBy, written, h.symm]

/-- What a call has left of what it found pending, and what it has applied so far. -/
structure Todo (log : List (ℕ × Effect)) (i : ℕ) (g : Migrator) (todo : List Migration)
    (report : Report) : Prop where
  registered : ∀ m ∈ g.migrations, m.version ∈ recorded log ∨ m ∈ todo
  fresh : ∀ m ∈ todo, m.version ∉ recorded log
  ascending : Ascending todo
  applied : report.applied = recorded (writesBy log i)
  sorted : report.applied.Pairwise (· < ·)
  below : ∀ v ∈ report.applied, ∀ m ∈ todo, v < m.version
  above : g.allowOutOfOrder = false → ∀ m ∈ todo, ∀ v ∈ recorded log, v < m.version

variable {g : Migrator} {todo : List Migration} {report : Report}

theorem Todo.start (hquiet : writesBy log i = []) (h : g.pendingFrom (rowsOf log) = .ok todo)
    (alreadyApplied : ℕ) : Todo log i g todo ⟨[], alreadyApplied⟩ := by
  obtain ⟨rfl, habove⟩ := pendingFrom_spec h
  constructor
  case registered =>
    intro m hm
    by_cases hmem : m.version ∈ recorded log
    · exact .inl hmem
    · exact .inr (List.mem_filter.2 ⟨hm, decide_eq_true hmem⟩)
  case fresh =>
    intro m hm
    exact of_decide_eq_true (List.mem_filter.1 hm).2
  case ascending => exact g.ascending.sublist (List.filter_sublist.map _)
  case applied => rw [hquiet]; rfl
  case sorted => exact .nil
  case below => simp
  case above =>
    intro hout m hm v hv
    obtain ⟨row, hrow, rfl⟩ := List.mem_map.1 hv
    exact habove hout m hm row hrow

theorem Todo.commit (h : Todo log i g (m :: todo) report) :
    Todo (log ++ written i m) i g todo
      { report with applied := report.applied ++ [m.version] } := by
  obtain ⟨hm, hasc⟩ := List.pairwise_cons.1 h.ascending
  have hlt : ∀ m' ∈ todo, m.version < m'.version :=
    fun m' hm' => hm _ (List.mem_map_of_mem hm')
  have hrec : ∀ v, v ∈ recorded (log ++ written i m) ↔ v ∈ recorded log ∨ v = m.version := by
    intro v
    rw [recorded_concat]
    simp
  constructor
  case registered =>
    intro m' hm'
    rw [hrec]
    rcases h.registered m' hm' with hr | hr
    · exact .inl (.inl hr)
    · rcases List.mem_cons.1 hr with rfl | hr
      · exact .inl (.inr rfl)
      · exact .inr hr
  case fresh =>
    intro m' hm'
    rw [hrec]
    rintro (hr | hr)
    · exact h.fresh m' (List.mem_cons_of_mem _ hm') hr
    · exact (hlt m' hm').ne' hr
  case ascending => exact hasc
  case applied =>
    rw [writesBy_concat_self, recorded_concat, ← h.applied]
  case sorted =>
    refine List.pairwise_append.2 ⟨h.sorted, List.pairwise_singleton _ _, fun v hv w hw => ?_⟩
    rw [List.mem_singleton.1 hw]
    exact h.below v hv m List.mem_cons_self
  case below =>
    intro v hv m' hm'
    rcases List.mem_append.1 hv with hv | hv
    · exact h.below v hv m' (List.mem_cons_of_mem _ hm')
    · rw [List.mem_singleton.1 hv]
      exact hlt m' hm'
  case above =>
    intro hout m' hm' v hv
    rcases (hrec v).1 hv with hv | rfl
    · exact h.above hout m' (List.mem_cons_of_mem _ hm') v hv
    · exact hlt m' hm'

/-- What a call that is over has done. -/
def Over (log : List (ℕ × Effect)) (i : ℕ) (g : Migrator) : Except Failure Report → Prop
  | .ok report => (∀ m ∈ g.migrations, m.version ∈ recorded log) ∧
      report.applied = recorded (writesBy log i) ∧ report.applied.Pairwise (· < ·)
  | .error failure => failure.refusal = true → writesBy log i = []

theorem Over.grow (h : Over log i g outcome) (hj : i ≠ j) :
    Over (log ++ written j m) i g outcome := by
  cases outcome with
  | ok report =>
    obtain ⟨hall, happlied, hsorted⟩ := h
    refine ⟨fun m' hm' => ?_, ?_, hsorted⟩
    · rw [recorded_concat]
      exact List.mem_append_left _ (hall m' hm')
    · rw [writesBy_concat_ne hj]
      exact happlied
  | error failure =>
    intro hrefusal
    rw [writesBy_concat_ne hj]
    exact h hrefusal

end Log

/-! ## What every turn keeps -/

/-- Past the lock, and not yet past its release. -/
def Point.inside : Point → Bool
  | .lock | .ended _ | .pendingTable | .pendingRead | .listed _ => false
  | _ => true

/-- What a call has in hand at the point it is at. -/
def Point.Holds (log : List (ℕ × Effect)) (i : ℕ) (g : Migrator)
    (transaction : Option (List Effect)) : Point → Prop
  | .lock | .ensureTable | .readApplied => writesBy log i = []
  | .begin_ m todo report => Todo log i g (m :: todo) report
  | .apply m left todo report => Todo log i g (m :: todo) report ∧
      ∃ past, m.statements = past ++ left ∧
        transaction = some (past.map (.statement m.version))
  | .commit m todo report => Todo log i g (m :: todo) report ∧ transaction = some m.effects
  | .rollback _ _ => True
  | .unlock outcome | .ended outcome => Over log i g outcome
  | .pendingTable | .pendingRead | .listed _ => True

/-- A call inside has taken the lock; one that is over has asked once to have it released, if it
took it. -/
def Point.Asks (taken : Bool) (asked : ℕ) : Point → Prop
  | .lock | .pendingTable | .pendingRead | .listed _ => taken = false ∧ asked = 0
  | .ended _ => asked = if taken then 1 else 0
  | _ => taken = true ∧ asked = 0

/-- A call as it is between turns. -/
structure Call.Stands (log : List (ℕ × Effect)) (i : ℕ) (c : Call) : Prop where
  transactional : c.migrator.transactional = true
  locking : c.migrator.locking = true
  holds : c.point.Holds log i c.migrator c.transaction
  asks : c.point.Asks c.taken c.asked

/-- The database and the calls between turns. -/
structure Kept (s : State) : Prop where
  whole : ∃ blocks : List (ℕ × Migration),
    s.committed = blocks.flatMap (fun b => written b.1 b.2) ∧
    (blocks.map fun b => b.2.version).Nodup
  known : ∀ i, s.calls i = none → writesBy s.committed i = []
  inside : ∀ i c, s.calls i = some c → c.point.inside = true → s.holder = some i
  stands : ∀ i c, s.calls i = some c → c.Stands s.committed i
  ordered : (∀ i c, s.calls i = some c → c.migrator.allowOutOfOrder = false) →
    (recorded s.committed).Pairwise (· < ·)

section Steps

variable {s : State} {i j : ℕ} {c c' : Call}

theorem Kept.new : Kept .new where
  whole := ⟨[], rfl, .nil⟩
  known _ _ := rfl
  inside _ _ h := nomatch h
  stands _ _ h := nomatch h
  ordered _ := .nil

theorem recorded_flatMap (blocks : List (ℕ × Migration)) :
    recorded (blocks.flatMap fun b => written b.1 b.2) = blocks.map fun b => b.2.version := by
  induction blocks with
  | nil => rfl
  | cons b blocks ih => rw [List.flatMap_cons, recorded_append, ih, recorded_written]; rfl

theorem Kept.replace (h : Kept s) (holder : Option ℕ)
    (hmigrator : ∀ c, s.calls i = some c → c'.migrator = c.migrator)
    (hself : c'.point.inside = true → holder = some i)
    (hothers : ∀ j ≠ i, ∀ d, s.calls j = some d → d.point.inside = true → holder = some j)
    (hstands : c'.Stands s.committed i) : Kept { s.set i c' with holder } := by
  have hcalls : ∀ j d, (s.set i c').calls j = some d →
      j = i ∧ d = c' ∨ j ≠ i ∧ s.calls j = some d := by
    intro j d hd
    by_cases hj : j = i
    · subst hj
      exact .inl ⟨rfl, by simpa [State.set] using hd.symm⟩
    · exact .inr ⟨hj, by simpa [State.set, hj] using hd⟩
  constructor
  case whole => exact h.whole
  case known =>
    intro j hj
    by_cases hji : j = i
    · subst hji
      simp [State.set] at hj
    · exact h.known j (by simpa [State.set, hji] using hj)
  case inside =>
    intro j d hd hin
    rcases hcalls j d hd with ⟨rfl, rfl⟩ | ⟨hj, hd⟩
    · exact hself hin
    · exact hothers j hj d hd hin
  case stands =>
    intro j d hd
    rcases hcalls j d hd with ⟨rfl, rfl⟩ | ⟨hj, hd⟩
    · exact hstands
    · exact h.stands j d hd
  case ordered =>
    intro hout
    refine h.ordered fun j d hd => ?_
    by_cases hj : j = i
    · subst hj
      rw [← hmigrator d hd]
      exact hout j c' (by simp [State.set])
    · exact hout j d (by simpa [State.set, hj] using hd)

theorem Kept.set (h : Kept s) (hc : s.calls i = some c) (hmigrator : c'.migrator = c.migrator)
    (hin : c'.point.inside = true → c.point.inside = true) (hstands : c'.Stands s.committed i) :
    Kept (s.set i c') := by
  refine h.replace s.holder (fun d hd => ?_) (fun hp => h.inside i c hc (hin hp))
    (fun j _ d hd => h.inside j d hd) hstands
  rw [hmigrator, Option.some.inj (hc.symm.trans hd)]

theorem Kept.not_inside (h : Kept s) (hc : s.calls i = some c) (hin : c.point.inside = true)
    {d : Call} (hd : s.calls j = some d) (hj : j ≠ i) : d.point.inside = false := by
  by_contra hdin
  have hi := h.inside i c hc hin
  have hj' := h.inside j d hd (by simpa using hdin)
  exact hj (Option.some.inj (hj'.symm.trans hi))

theorem Call.Stands.grow {log : List (ℕ × Effect)} (h : c.Stands log i)
    (hout : c.point.inside = false) (hj : i ≠ j) : c.Stands (log ++ written j m) i where
  transactional := h.transactional
  locking := h.locking
  asks := h.asks
  holds := by
    have hholds := h.holds
    revert hholds hout
    cases c.point with
    | lock =>
      intro _ hquiet
      exact (writesBy_concat_ne hj).trans hquiet
    | ended outcome => exact fun _ hover => Over.grow hover hj
    | pendingTable | pendingRead | listed => exact fun _ _ => trivial
    | ensureTable | readApplied | begin_ | apply | commit | rollback | unlock =>
      exact fun hout => nomatch hout

theorem Kept.commit (h : Kept s) {todo : List Migration} {report : Report}
    (hc : s.calls i = some c) (hin : c.point.inside = true)
    (htodo : Todo s.committed i c.migrator (m :: todo) report)
    (hmigrator : c'.migrator = c.migrator)
    (hstands : c'.Stands (s.committed ++ written i m) i) :
    Kept ({ s with committed := s.committed ++ written i m }.set i c') := by
  have hfresh := htodo.fresh m List.mem_cons_self
  constructor
  case whole =>
    obtain ⟨blocks, hblocks, hnodup⟩ := h.whole
    refine ⟨blocks ++ [(i, m)], by simp [State.set, hblocks], ?_⟩
    rw [hblocks, recorded_flatMap] at hfresh
    rw [List.map_append]
    exact hnodup.append (by simp) (by simpa using hfresh)
  case known =>
    intro j hj
    have hji : j ≠ i := by
      rintro rfl
      simp [State.set] at hj
    exact (writesBy_concat_ne hji).trans (h.known j (by simpa [State.set, hji] using hj))
  case inside =>
    intro j d hd hdin
    by_cases hj : j = i
    · exact hj ▸ h.inside i c hc hin
    · exact h.inside j d (by simpa [State.set, hj] using hd) hdin
  case stands =>
    intro j d hd
    by_cases hj : j = i
    · subst hj
      obtain rfl : c' = d := by simpa [State.set] using hd
      exact hstands
    · have hd : s.calls j = some d := by simpa [State.set, hj] using hd
      exact (h.stands j d hd).grow (h.not_inside hc hin hd hj) hj
  case ordered =>
    intro hout
    have hold : ∀ j d, s.calls j = some d → d.migrator.allowOutOfOrder = false := by
      intro j d hd
      by_cases hj : j = i
      · subst hj
        rw [← Option.some.inj (hc.symm.trans hd), ← hmigrator]
        exact hout j c' (by simp [State.set])
      · exact hout j d (by simpa [State.set, hj] using hd)
    have habove := htodo.above (hold i c hc) m List.mem_cons_self
    show (recorded (s.committed ++ written i m)).Pairwise (· < ·)
    rw [recorded_concat]
    refine List.pairwise_append.2 ⟨h.ordered hold, List.pairwise_singleton _ _, fun v hv w hw => ?_⟩
    rw [List.mem_singleton.1 hw]
    exact habove v hv

/-! ### The points of a call -/

/-- A call that has taken the lock and is to release it. -/
structure Call.Running (c : Call) : Prop where
  transactional : c.migrator.transactional = true
  locking : c.migrator.locking = true
  taken : c.taken = true
  asked : c.asked = 0

section Points

variable {log : List (ℕ × Effect)} {m : Migration} {todo : List Migration} {report : Report}

variable {point : Point}

theorem Point.asks_iff (hin : point.inside = true) (taken : Bool) (asked : ℕ) :
    point.Asks taken asked ↔ taken = true ∧ asked = 0 := by
  cases point <;> first | exact Iff.rfl | cases hin

theorem Call.Stands.running (h : c.Stands log i) (hin : c.point.inside = true) : c.Running := by
  obtain ⟨htaken, hasked⟩ := (Point.asks_iff hin _ _).1 h.asks
  exact ⟨h.transactional, h.locking, htaken, hasked⟩

section

variable (h : c.Running)

include h

theorem Call.Running.withTransaction (transaction : Option (List Effect)) :
    { c with transaction }.Running := ⟨h.transactional, h.locking, h.taken, h.asked⟩

theorem Call.Running.at_ (hin : point.inside = true)
    (hholds : point.Holds log i c.migrator c.transaction) : (c.at_ point).Stands log i where
  transactional := h.transactional
  locking := h.locking
  holds := hholds
  asks := (Point.asks_iff hin _ _).2 ⟨h.taken, h.asked⟩

/-- A run that is over, or has failed, is to release the lock. -/
theorem Call.Running.finish (hover : Over log i c.migrator outcome) :
    (c.finish outcome).Stands log i := by
  rw [Call.finish, h.locking]
  exact h.at_ rfl hover

theorem Call.Running.next (htodo : Todo log i c.migrator todo report) :
    (c.next todo report).Stands log i := by
  cases todo with
  | nil =>
    refine h.finish ⟨fun m hm => ?_, htodo.applied, htodo.sorted⟩
    exact (htodo.registered m hm).resolve_right (by simp)
  | cons m todo =>
    rw [Call.next, h.transactional]
    exact h.at_ rfl htodo

theorem Call.Running.fail (m : Migration) (text : String) : (c.fail m text).Stands log i := by
  rw [Call.fail, h.transactional]
  exact h.at_ rfl trivial

end

theorem Call.migrator_next (c : Call) (todo : List Migration) (report : Report) :
    (c.next todo report).migrator = c.migrator := by
  cases todo <;> rfl

theorem Call.migrator_fail (c : Call) (m : Migration) (text : String) :
    (c.fail m text).migrator = c.migrator := by
  unfold Call.fail
  split <;> rfl

section

variable (h : Kept s)

include h

section

variable (hc : s.calls i = some c)

include hc

theorem Kept.goOn (hin : c.point.inside = true) (hmigrator : c'.migrator = c.migrator)
    (hstands : c'.Stands s.committed i) : Kept (s.set i c') :=
  h.set hc hmigrator (fun _ => hin) hstands

theorem Kept.finish (hin : c.point.inside = true) {failure : Failure}
    (hquiet : failure.refusal = true → writesBy s.committed i = []) :
    Kept (s.set i (c.finish (.error failure))) :=
  h.goOn hc hin rfl (((h.stands i c hc).running hin).finish hquiet)

theorem Kept.applyNext {left : List String} (hpoint : c.point = .apply m left todo report)
    (seam : Seam) : Kept (s.applyNext i c m left todo report seam) := by
  have hin : c.point.inside = true := by rw [hpoint]; rfl
  have hrunning := (h.stands i c hc).running hin
  have hholds := (h.stands i c hc).holds
  rw [hpoint] at hholds
  obtain ⟨htodo, past, hpast, htransaction⟩ := hholds
  cases seam with
  | throws text done =>
    -- whatever the transaction has now, it is rolled back
    cases done with
    | false => exact h.goOn hc hin (c.migrator_fail m text) (hrunning.fail m text)
    | true =>
      simp only [State.applyNext, State.write, htransaction]
      exact h.goOn hc hin (Call.migrator_fail _ m text)
        ((hrunning.withTransaction _).fail m text)
  | returns =>
    cases left with
    | nil =>
      simp only [State.applyNext, Seam.done, State.write, htransaction, if_true,
        hrunning.transactional]
      refine h.goOn hc hin rfl ((hrunning.withTransaction _).at_ rfl ⟨htodo, ?_⟩)
      rw [Migration.effects, hpast, List.append_nil]
    | cons sql left =>
      simp only [State.applyNext, State.write, htransaction]
      refine h.goOn hc hin rfl ((hrunning.withTransaction _).at_ rfl ⟨htodo, past ++ [sql], ?_, ?_⟩)
      · simp [hpast]
      · simp

theorem Kept.commitOf (hpoint : c.point = .commit m todo report)
    (hmigrator : c'.migrator = c.migrator) (hstands : c'.Stands (s.committed ++ written i m) i) :
    Kept ((s.commitOf i c).1.set i c') := by
  have hholds := (h.stands i c hc).holds
  rw [hpoint] at hholds
  obtain ⟨htodo, htransaction⟩ := hholds
  rw [State.commitOf, htransaction]
  exact h.commit hc (by rw [hpoint]; rfl) htodo hmigrator hstands

theorem Kept.list (hasks : point.Asks c.taken c.asked) (hout : point.inside = false)
    (hholds : point.Holds s.committed i c.migrator c.transaction) :
    Kept (s.set i (c.at_ point)) := by
  have hstands := h.stands i c hc
  refine h.set hc rfl (fun hin => ?_) ⟨hstands.transactional, hstands.locking, hholds, hasks⟩
  exact absurd (hout.symm.trans hin) (by simp)

/-- **The seam a call has come to, whatever it does, keeps the state in order.** -/
theorem Kept.go (seam : Seam) : Kept (s.go i c seam) := by
  have hstands := h.stands i c hc
  have hself : ∀ d, s.calls i = some d → c.migrator = d.migrator :=
    fun d hd => congrArg Call.migrator (Option.some.inj (hc.symm.trans hd))
  obtain ⟨g, point, transaction, taken, asked⟩ := c
  have hholds := hstands.holds
  have hasks := hstands.asks
  cases point with
  | lock =>
    obtain ⟨rfl, rfl⟩ : taken = false ∧ asked = 0 := hasks
    cases seam with
    | throws text done => exact h.list hc rfl rfl fun hr => nomatch hr
    | returns =>
      simp only [State.go]
      split
      · rename_i hfree
        refine h.replace (some i) hself (fun _ => rfl) (fun j _ d hd hin => ?_)
          ⟨hstands.transactional, hstands.locking, hholds, rfl, rfl⟩
        exact absurd (hfree.symm.trans (h.inside j d hd hin)) (by simp)
      · exact h
  | ensureTable =>
    cases seam with
    | throws text done => exact h.finish hc rfl fun hr => nomatch hr
    | returns => exact h.goOn hc rfl rfl ((hstands.running rfl).at_ rfl hholds)
  | readApplied =>
    cases seam with
    | throws text done => exact h.finish hc rfl fun hr => nomatch hr
    | returns =>
      simp only [State.go]
      split
      · exact h.finish hc rfl fun _ => hholds
      · rename_i todo hpending
        exact h.goOn hc rfl (Call.migrator_next _ _ _)
          ((hstands.running rfl).next (Todo.start hholds hpending _))
  | begin_ m todo report =>
    cases seam with
    | throws text done =>
      cases done with
      | false => exact h.finish hc rfl fun hr => nomatch hr
      | true =>
        exact h.goOn hc rfl rfl
          (((hstands.running rfl).withTransaction (some [])).finish fun hr => nomatch hr)
    | returns =>
      exact h.goOn hc rfl rfl
        (((hstands.running rfl).withTransaction (some [])).at_ rfl ⟨hholds, [], rfl, rfl⟩)
  | apply m left todo report => exact h.applyNext hc rfl seam
  | commit m todo report =>
    have hrunning := (hstands.running rfl).withTransaction none
    cases seam with
    | throws text done =>
      cases done with
      | false =>
        exact h.goOn hc rfl (Call.migrator_fail _ m text) ((hstands.running rfl).fail m text)
      | true => exact h.commitOf hc rfl (Call.migrator_fail _ m text) (hrunning.fail m text)
    | returns =>
      exact h.commitOf hc rfl (Call.migrator_next _ _ _) (hrunning.next hholds.1.commit)
  | rollback m text =>
    exact h.goOn hc rfl rfl
      (((hstands.running rfl).withTransaction none).finish fun hr => nomatch hr)
  | unlock outcome =>
    obtain ⟨rfl, rfl⟩ : taken = true ∧ asked = 0 := hasks
    refine h.replace _ hself (fun hin => nomatch hin) (fun j hj d hd hin => ?_)
      ⟨hstands.transactional, hstands.locking, hholds, rfl⟩
    exact absurd (h.not_inside hc rfl hd hj) (by simp [hin])
  | ended outcome => exact h
  | pendingTable | pendingRead => cases seam <;> exact h.list hc hasks rfl trivial
  | listed outcome => exact h

end

theorem Kept.call {g : Migrator} (htransactional : g.transactional = true)
    (hlocking : g.locking = true) (hout : point.inside = false) (hasks : point.Asks false 0)
    (hholds : writesBy s.committed i = [] → point.Holds s.committed i g none) :
    Kept (s.call i g point) := by
  unfold State.call
  split
  · rename_i hnone
    refine h.replace s.holder (fun d hd => ?_) (fun hin => ?_) (fun j _ d hd => h.inside j d hd)
      ⟨htransactional, hlocking, hholds (h.known i hnone), hasks⟩
    · exact absurd (hnone.symm.trans hd) (by simp)
    · exact absurd (hout.symm.trans hin) (by simp)
  · exact h

end

end Points

/-- The migrator of a new call has a transaction and a lock. -/
def Turn.Guarded : Turn → Prop
  | .migrate _ g | .pending _ g => g.transactional = true ∧ g.locking = true
  | .go _ _ => True

instance (t : Turn) : Decidable t.Guarded := by
  unfold Turn.Guarded
  split <;> infer_instance

theorem Kept.step (h : Kept s) (t : Turn) (ht : t.Guarded) : Kept (s.step t) := by
  cases t with
  | migrate i g =>
    rw [State.step, ht.2]
    exact h.call ht.1 ht.2 rfl ⟨rfl, rfl⟩ id
  | pending i g => exact h.call ht.1 ht.2 rfl ⟨rfl, rfl⟩ fun _ => trivial
  | go i seam =>
    rw [State.step]
    split
    · rename_i c hc
      exact h.go hc seam
    · exact h

end Steps

/-! ## The result -/

/-- What is committed is the migrations recorded, whole and once each, and in ascending order if no
migrator allows otherwise.  A call that returned has all its migrations recorded, and reports those
it committed itself, ascending; one that threw over a checksum or an order has committed nothing;
and one that took the lock has asked once to have it released. -/
theorem each_once_in_order (turns : List Turn) (hguarded : ∀ t ∈ turns, t.Guarded) :
    let s := Runs.run State.step .new turns
    (∃ blocks : List (ℕ × Migration),
      s.committed = blocks.flatMap (fun b => written b.1 b.2) ∧
      recorded s.committed = blocks.map (fun b => b.2.version) ∧
      (recorded s.committed).Nodup) ∧
    ((∀ i c, s.calls i = some c → c.migrator.allowOutOfOrder = false) →
      (recorded s.committed).Pairwise (· < ·)) ∧
    (∀ i c report, s.calls i = some c → c.point = .ended (.ok report) →
      (∀ m ∈ c.migrator.migrations, m.version ∈ recorded s.committed) ∧
      report.applied = recorded (writesBy s.committed i) ∧ report.applied.Pairwise (· < ·)) ∧
    (∀ i c failure, s.calls i = some c → c.point = .ended (.error failure) →
      failure.refusal = true → writesBy s.committed i = []) ∧
    ∀ i c outcome, s.calls i = some c → c.point = .ended outcome →
      c.asked = if c.taken then 1 else 0 := by
  intro s
  have h : Kept s := Runs.run_invariant_along Kept.new (fun _ t hs ht => hs.step t ht)
    (Runs.along_of_forall_mem hguarded)
  obtain ⟨blocks, hblocks, hnodup⟩ := h.whole
  have hrecorded : recorded s.committed = blocks.map fun b => b.2.version := by
    rw [hblocks, recorded_flatMap]
  refine ⟨⟨blocks, hblocks, hrecorded, hrecorded ▸ hnodup⟩, h.ordered, ?_, ?_, ?_⟩
  · intro i c report hc hpoint
    have hholds := (h.stands i c hc).holds
    rw [hpoint] at hholds
    exact hholds
  · intro i c failure hc hpoint
    have hholds := (h.stands i c hc).holds
    rw [hpoint] at hholds
    exact hholds
  · intro i c outcome hc hpoint
    have hasks := (h.stands i c hc).asks
    rw [hpoint] at hasks
    exact hasks

/-- A migration of one statement, and a migrator that has it. -/
def createAccounts : Migration :=
  ⟨1, "create accounts", none, ["CREATE TABLE accounts (id INTEGER PRIMARY KEY)"], le_rfl⟩

def accounts : Migrator := ⟨[createAccounts], true, true, false, List.pairwise_singleton _ _⟩

/-- A commit goes through and its answer is lost; the next call finds its migration recorded. -/
def lostAnswer : List Turn :=
  .migrate 0 accounts :: List.replicate 6 (.go 0 .returns) ++
    [.go 0 (.throws "connection lost" true), .go 0 .returns, .go 0 .returns] ++
    .migrate 1 accounts :: List.replicate 4 (.go 1 .returns)

theorem lostAnswer_recorded_once :
    recorded (Runs.run State.step .new lostAnswer).committed = [1] ∧
    (((Runs.run State.step .new lostAnswer).calls 1).map fun c => (c.taken, c.asked)) =
      some (true, 1) ∧ (recorded (Runs.run State.step .new lostAnswer).committed).Nodup := by
  refine ⟨by decide +kernel, by decide +kernel, ?_⟩
  obtain ⟨-, -, -, hnodup⟩ := (each_once_in_order lostAnswer (by decide)).1
  exact hnodup

end SchemaMigrator
end CrossByte
