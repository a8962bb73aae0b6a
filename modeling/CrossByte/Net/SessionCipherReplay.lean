import CrossByte.Net.SessionCipherWindow

/-!
# Replay safety of the session cipher

The AEAD is assumed to authenticate (`Authentic`): it opens a datagram under a
nonce exactly when the peer sealed that datagram under the packet number of that
nonce.  The peer's datagrams are those of a run of `seal` from packet number 0,
so each number is used once.

`replay_safety` is about every run of `open`, on any datagrams in any order.  The
one number within reach that `open` gets wrong is the one `2 ^ 31` ahead of the
next expected: its low half is as near to a number long past, and the code takes
that one.
-/

namespace CrossByte

open Serial Bytes

namespace SessionCipher

variable {c peer : SessionCipher} {high high' : ℤ} {low low' : Word} {data : List Byte}
  {seen : List ℤ}

/-! ## What the peer seals -/

/-- What `seal` is asked for: the plaintext, whether as a hello, and what that answers. -/
abbrev Request := List Byte × Bool × Word

/-- The datagrams a run of `seal` makes, up to the first it refuses. -/
def sealRun (c : SessionCipher) : List Request → List (List Byte)
  | [] => []
  | r :: rs =>
    match c.sealDatagram r.1 r.2.1 r.2.2 with
    | none => []
    | some (data, c') => data :: sealRun c' rs

/-- The cipher with its next packet number `n`. -/
def atNumber (c : SessionCipher) (n : ℕ) : SessionCipher :=
  { c with sendHigh := (n : ℤ) / 2 ^ 32, sendLow := BitVec.ofNat 32 n }

/-- The datagram a request makes under packet number `n`. -/
def datagramAt (c : SessionCipher) (n : ℕ) (r : Request) : List Byte :=
  let header := (c.atNumber n).headerOf r.2.1 r.2.2
  header ++ c.send.seals (nonceFor c.sendIv ((n : ℤ) / 2 ^ 32) (BitVec.ofNat 32 n)) header r.1

theorem sealDatagram_atNumber (hready : c.ready = true) {n : ℕ} (hn : n < 2 ^ 62) (r : Request) :
    (c.atNumber n).sealDatagram r.1 r.2.1 r.2.2 = some (c.datagramAt n r, c.atNumber (n + 1)) := by
  have hhigh : ¬ ((n : ℤ) / 2 ^ 32 ≥ 0x40000000) := by omega
  have hlow : BitVec.ofNat 32 n + 1 = BitVec.ofNat 32 (n + 1) := by
    rw [BitVec.ofNat_add]
    rfl
  have hzero : BitVec.ofNat 32 (n + 1) = 0 ↔ (n + 1) % 2 ^ 32 = 0 := by
    rw [← BitVec.toNat_inj]
    rfl
  have hstep : (if BitVec.ofNat 32 (n + 1) = 0 then (n : ℤ) / 2 ^ 32 + 1 else (n : ℤ) / 2 ^ 32) =
      ((n + 1 : ℕ) : ℤ) / 2 ^ 32 := by
    simp only [hzero]
    split <;> omega
  unfold sealDatagram
  simp only [atNumber, hready, hhigh, hlow,
    hstep]
  rfl

/-- The `n`th datagram of a peer is sealed under packet number `n`. -/
theorem getElem?_sealRun (hready : c.ready = true) (rs : List Request) (k n : ℕ)
    (hk : k + n < 2 ^ 62) :
    (sealRun (c.atNumber k) rs)[n]? = rs[n]?.map (c.datagramAt (k + n)) := by
  induction rs generalizing k n with
  | nil => simp [sealRun]
  | cons r rs ih =>
    rw [sealRun, sealDatagram_atNumber hready (by omega)]
    cases n with
    | zero => simp
    | succ n =>
      simp only [List.getElem?_cons_succ]
      rw [ih (k + 1) n (by omega), show k + 1 + n = k + (n + 1) by omega]

theorem length_sealRun_le (rs : List Request) (k : ℕ) (hk : k ≤ 2 ^ 62) :
    (sealRun (c.atNumber k) rs).length ≤ 2 ^ 62 - k := by
  induction rs generalizing k with
  | nil => simp [sealRun]
  | cons r rs ih =>
    by_cases h : c.ready = true ∧ k < 2 ^ 62
    · rw [sealRun, sealDatagram_atNumber h.1 h.2]
      have := ih (k + 1) h.2
      simp only [List.length_cons]
      omega
    · have hrefuses : (!c.ready) = true ∨ (k : ℤ) / 2 ^ 32 ≥ 0x40000000 := by
        rcases not_and_or.1 h with h | h
        · exact .inl (by simpa using h)
        · exact .inr (by omega)
      rw [sealRun, sealDatagram, if_pos (by exact hrefuses)]
      simp

/-- The header of a sealed datagram is as long as `open` takes it to be, and ends in the low
half of the packet number. -/
theorem datagramAt_shape (c : SessionCipher) (n : ℕ) (r : Request) :
    sentLow (c.datagramAt n r) = BitVec.ofNat 32 n ∧
      headerLength (c.datagramAt n r) + tagSize ≤ (c.datagramAt n r).length := by
  obtain ⟨plain, hello, answering⟩ := r
  have hbody := c.send.length_seals
  cases hello with
  | false =>
    have hhead : headerLength (c.datagramAt n (plain, false, answering)) = sealedHeader := rfl
    refine ⟨?_, ?_⟩
    · unfold sentLow
      exact getInt_byteOf _
    · rw [hhead]
      simp [datagramAt, headerOf, hbody, sealedHeader, tagSize]
      omega
  | true =>
    have hhead : headerLength (c.datagramAt n (plain, true, answering)) = helloHeader := rfl
    have hrandom := c.localRandom_length
    refine ⟨?_, ?_⟩
    · unfold sentLow
      have hget : ∀ j < 4, (c.datagramAt n (plain, true, answering)).getD (21 + j) 0 =
          (putInt (BitVec.ofNat 32 n)).getD j 0 := by
        intro j hj
        simp only [datagramAt, headerOf, atNumber, if_true]
        rw [List.getD_eq_getElem?_getD,
          List.getElem?_append_left (by simp [hrandom]; omega),
          List.getElem?_append_right (by simp [hrandom])]
        simp [hrandom]
      have h0 := hget 0 (by decide)
      have h1 := hget 1 (by decide)
      have h2 := hget 2 (by decide)
      have h3 := hget 3 (by decide)
      change getInt (List.getD _ 21 0) (List.getD _ 22 0) (List.getD _ 23 0) (List.getD _ 24 0) = _
      rw [h0, h1, h2, h3]
      exact getInt_byteOf _
    · rw [hhead]
      simp [datagramAt, headerOf, hbody, helloHeader, tagSize, atNumber]
      omega

/-! ## What `open` lets in -/

/-- The AEAD opens a datagram under a nonce exactly when the peer sealed that datagram under
the packet number of that nonce; `log` is what it sealed, in order from number 0. -/
def Authentic (c : SessionCipher) (log : List (List Byte)) : Prop :=
  ∀ nonce data,
    (c.receive.opens nonce (data.take (headerLength data))
      (data.drop (headerLength data))).isSome = true ↔
    ∃ n : ℕ, log[n]? = some data ∧
      nonce = nonceFor c.receiveIv ((n : ℤ) / 2 ^ 32) (BitVec.ofNat 32 n)

theorem nonceFor_inj {iv : ℕ → Byte} (h₁ : 0 ≤ high ∧ high < 2 ^ 32)
    (h₂ : 0 ≤ high' ∧ high' < 2 ^ 32) (h : nonceFor iv high low = nonceFor iv high' low') :
    high = high' ∧ low = low' := by
  simp only [nonceFor, List.cons.injEq, BitVec.xor_right_inj, true_and, and_true] at h
  obtain ⟨e3, e2, e1, e0, f3, f2, f1, f0⟩ := h
  have hhigh : BitVec.ofInt 32 high = BitVec.ofInt 32 high' := by
    refine eq_of_byteOf fun k hk => ?_
    interval_cases k <;> assumption
  have hlow : low = low' := by
    refine eq_of_byteOf fun k hk => ?_
    interval_cases k <;> assumption
  refine ⟨?_, hlow⟩
  have htoNat := congrArg BitVec.toNat hhigh
  rw [BitVec.toNat_ofInt, BitVec.toNat_ofInt] at htoNat
  omega

/-- What `open` did: dropped the datagram and counted it, or let it in. -/
theorem openDatagram_cases (c : SessionCipher) (data : List Byte) :
    (∃ drop, c.openDatagram data = (.error drop, c.count drop)) ∨
    ∃ plain, c.openDatagram data =
        (.ok ⟨c.highFor (sentLow data), sentLow data, plain⟩,
          c.accept (c.highFor (sentLow data)) (sentLow data)) ∧
      0 ≤ c.highFor (sentLow data) ∧
      c.refused (c.highFor (sentLow data)) (sentLow data) = none ∧
      c.receive.opens (nonceFor c.receiveIv (c.highFor (sentLow data)) (sentLow data))
        (data.take (headerLength data)) (data.drop (headerLength data)) = some plain := by
  unfold openDatagram
  dsimp only
  split
  · exact .inl ⟨_, rfl⟩
  · split
    · exact .inl ⟨_, rfl⟩
    · rename_i hhigh
      split
      · exact .inl ⟨_, rfl⟩
      · rename_i hrefused
        split
        · exact .inl ⟨_, rfl⟩
        · rename_i plain hopens
          exact .inr ⟨plain, rfl, not_lt.1 hhigh, hrefused, hopens⟩

theorem openDatagram_ok (hready : c.ready = true)
    (hlen : headerLength data + tagSize ≤ data.length)
    (hhigh : 0 ≤ c.highFor (sentLow data))
    (hrefused : c.refused (c.highFor (sentLow data)) (sentLow data) = none)
    (hopens : (c.receive.opens (nonceFor c.receiveIv (c.highFor (sentLow data)) (sentLow data))
      (data.take (headerLength data)) (data.drop (headerLength data))).isSome = true) :
    ∃ o, (c.openDatagram data).1 = .ok o := by
  obtain ⟨plain, hplain⟩ := Option.isSome_iff_exists.1 hopens
  have hcheck : ¬ ((!c.ready) = true ∨ (data.length : ℤ) - headerLength data - tagSize < 0) := by
    simp only [hready, Bool.not_true, Bool.false_eq_true, false_or]
    omega
  unfold openDatagram
  simp only [if_neg hcheck, if_neg (not_lt.2 hhigh), hrefused, hplain]
  exact ⟨_, rfl⟩

/-- A cipher and its peer, before the first datagram: both have their keys, nothing is opened,
and the AEAD authenticates what the peer seals. -/
structure Keyed (c peer : SessionCipher) (rs : List Request) : Prop where
  ready : c.ready = true
  peerReady : peer.ready = true
  unopened : c.opened = false
  highHigh : c.highHigh = 0
  authentic : Authentic c (sealRun (peer.atNumber 0) rs)

/-- The cipher after a run of `open`. -/
def openRun (c : SessionCipher) (ds : List (List Byte)) : SessionCipher :=
  Runs.run (fun c d => (c.openDatagram d).2) c ds

/-- The packet number an answer of `open` was opened under, if it was. -/
def openedNumber : Except Drop Opening → Option ℤ
  | .ok o => some (number o.high o.low)
  | .error _ => none

/-- The packet numbers opened in a run of `open`, in order. -/
def openedNumbers (c : SessionCipher) : List (List Byte) → List ℤ
  | [] => []
  | d :: ds => (openedNumber (c.openDatagram d).1).toList ++ openedNumbers (c.openDatagram d).2 ds

/-- What stays as it was made. -/
structure SameKeys (c c' : SessionCipher) : Prop where
  ready : c'.ready = c.ready
  receive : c'.receive = c.receive
  receiveIv : c'.receiveIv = c.receiveIv

theorem sameKeys_accept : SameKeys c (c.accept high low) := by
  unfold accept advance
  split <;> exact ⟨rfl, rfl, rfl⟩

theorem sameKeys_count (drop : Drop) : SameKeys c (c.count drop) := by
  cases drop <;> exact ⟨rfl, rfl, rfl⟩

theorem sameKeys_open (data : List Byte) : SameKeys c (c.openDatagram data).2 := by
  rcases c.openDatagram_cases data with ⟨drop, h⟩ | ⟨plain, h, -⟩
  · rw [h]
    exact sameKeys_count drop
  · rw [h]
    exact sameKeys_accept

theorem Authentic.sameKeys {c' : SessionCipher} {log : List (List Byte)} (h : Authentic c log)
    (hk : SameKeys c c') : Authentic c' log := by
  unfold Authentic
  rw [hk.receive, hk.receiveIv]
  exact h

theorem Window.count (h : Window c seen) (drop : Drop) : Window (c.count drop) seen := by
  cases drop <;> exact ⟨h.fresh, h.highest_mem, h.le_highest, h.range, h.bits⟩

theorem Window.nextExpected_bounds (h : Window c seen) :
    0 ≤ c.nextExpected ∧ c.nextExpected ≤ 2 ^ 62 := by
  unfold nextExpected
  cases hopened : c.opened with
  | false => simp
  | true =>
    have := h.range _ (h.highest_mem hopened)
    omega

variable {rs : List Request} {n : ℤ}

/-- A datagram `open` lets in was sealed under the number it rebuilt, which was not opened
before. -/
theorem Window.open_ok (h : Window c seen) (hauth : Authentic c (sealRun (peer.atNumber 0) rs))
    (hhigh : 0 ≤ c.highFor (sentLow data))
    (hrefused : c.refused (c.highFor (sentLow data)) (sentLow data) = none) {plain : List Byte}
    (hopens : c.receive.opens (nonceFor c.receiveIv (c.highFor (sentLow data)) (sentLow data))
      (data.take (headerLength data)) (data.drop (headerLength data)) = some plain) :
    number (c.highFor (sentLow data)) (sentLow data) ∉ seen ∧
      0 ≤ number (c.highFor (sentLow data)) (sentLow data) ∧
      number (c.highFor (sentLow data)) (sentLow data) < 2 ^ 62 := by
  set high := c.highFor (sentLow data) with hhigh'
  have hnum := c.number_highFor (sentLow data)
  have hexp := h.nextExpected_bounds
  have hahead := ahead_bounds (sentLow data) (BitVec.ofInt 32 c.nextExpected)
  refine ⟨fun hin => ?_, ?_, ?_⟩
  · cases hopened : c.opened with
    | false => simp [(h.fresh hopened).1] at hin
    | true =>
      exact (h.refused_eq_none_iff.1 hrefused hopened (h.le_highest _ hin)).2 hin
  · unfold number
    omega
  · obtain ⟨n, hn, hnonce⟩ := (hauth _ data).1 (by rw [hopens]; rfl)
    have hlen := (List.getElem?_eq_some_iff.1 hn).1
    have hmax := length_sealRun_le (c := peer) rs 0 (by norm_num)
    have hupper : high < 2 ^ 32 := by
      unfold number at hnum
      omega
    obtain ⟨hh, hl⟩ := nonceFor_inj ⟨hhigh, hupper⟩ (by omega) hnonce
    unfold number
    omega

theorem Window.open (h : Window c seen) (hauth : Authentic c (sealRun (peer.atNumber 0) rs))
    (data : List Byte) :
    Window (c.openDatagram data).2 (seen ++ (openedNumber (c.openDatagram data).1).toList) ∧
      ∀ n ∈ openedNumber (c.openDatagram data).1, n ∉ seen := by
  rcases c.openDatagram_cases data with ⟨drop, heq⟩ | ⟨plain, heq, hhigh, hrefused, hopens⟩
  · rw [heq]
    simpa [openedNumber] using h.count drop
  · obtain ⟨hnot, hrange⟩ := h.open_ok hauth hhigh hrefused hopens
    rw [heq]
    refine ⟨h.accept hrefused hrange, fun n hn => ?_⟩
    obtain rfl := Option.some.inj hn
    exact hnot

theorem openRun_spec (h : Window c seen) (hauth : Authentic c (sealRun (peer.atNumber 0) rs))
    (hseen : seen.Nodup) (ds : List (List Byte)) :
    Window (c.openRun ds) (seen ++ c.openedNumbers ds) ∧ SameKeys c (c.openRun ds) ∧
      (seen ++ c.openedNumbers ds).Nodup := by
  induction ds generalizing c seen with
  | nil => simpa [openRun, openedNumbers, hseen] using ⟨h, rfl, rfl, rfl⟩
  | cons d ds ih =>
    obtain ⟨hwin, hnew⟩ := h.open hauth d
    have hkeys := sameKeys_open (c := c) d
    have hnodup : (seen ++ (openedNumber (c.openDatagram d).1).toList).Nodup := by
      cases hnum : openedNumber (c.openDatagram d).1 with
      | none => simpa using hseen
      | some n =>
        rw [List.nodup_append]
        refine ⟨hseen, List.nodup_singleton n, fun a ha b hb hab => hnew n hnum ?_⟩
        rwa [← List.mem_singleton.1 hb, ← hab]
    obtain ⟨hwin', hkeys', hnodup'⟩ := ih hwin (hauth.sameKeys hkeys) hnodup
    rw [List.append_assoc] at hwin' hnodup'
    exact ⟨hwin', ⟨hkeys'.ready.trans hkeys.ready, hkeys'.receive.trans hkeys.receive,
      hkeys'.receiveIv.trans hkeys.receiveIv⟩, hnodup'⟩

theorem Keyed.window (h : Keyed c peer rs) : Window c [] where
  fresh _ := ⟨rfl, h.highHigh⟩
  highest_mem hopened := by simp [h.unopened] at hopened
  le_highest m hm := absurd hm List.not_mem_nil
  range m hm := absurd hm List.not_mem_nil
  bits hopened := by simp [h.unopened] at hopened

/-- A number half a turn ahead is taken for the one half a turn behind. -/
theorem number_highFor_half (hn : n = c.nextExpected + 2 ^ 31) :
    number (c.highFor (BitVec.ofInt 32 n)) (BitVec.ofInt 32 n) = c.nextExpected - 2 ^ 31 := by
  have hword : BitVec.ofInt 32 n = BitVec.ofInt 32 (c.nextExpected - 2 ^ 31) := by
    apply BitVec.eq_of_toNat_eq
    rw [BitVec.toNat_ofInt, BitVec.toNat_ofInt]
    omega
  rw [number_highFor, hword, ahead_ofInt (by omega) (by omega)]
  omega

/-- The number of a genuine datagram less than half a turn away is rebuilt. -/
theorem number_highFor_near (h₁ : -2 ^ 31 ≤ n - c.nextExpected) (h₂ : n - c.nextExpected < 2 ^ 31) :
    number (c.highFor (BitVec.ofInt 32 n)) (BitVec.ofInt 32 n) = n := by
  rw [number_highFor, ahead_ofInt h₁ h₂]
  omega

/-- **Replay safety.**  After any datagrams in any order: (a) no packet number was opened
twice; (b) a genuine datagram not opened before, within `2 ^ 31` of the next expected number
and at most 1023 below the highest, is opened unless it is `2 ^ 31` ahead exactly; (c) a
datagram that is dropped leaves the highest number and the window as they were. -/
theorem replay_safety {rs : List Request} (h : Keyed c peer rs) (ds : List (List Byte)) :
    (c.openedNumbers ds).Nodup ∧
    (∀ (n : ℕ) (data : List Byte), (sealRun (peer.atNumber 0) rs)[n]? = some data →
      (n : ℤ) ∉ c.openedNumbers ds →
      |(n : ℤ) - (c.openRun ds).nextExpected| ≤ 2 ^ 31 →
      ((c.openRun ds).opened = true → (c.openRun ds).highest - n ≤ 1023) →
      ((∃ o, ((c.openRun ds).openDatagram data).1 = .ok o) ↔
        (n : ℤ) ≠ (c.openRun ds).nextExpected + 2 ^ 31)) ∧
    ∀ data drop, ((c.openRun ds).openDatagram data).1 = .error drop →
      ((c.openRun ds).openDatagram data).2.opened = (c.openRun ds).opened ∧
      ((c.openRun ds).openDatagram data).2.highest = (c.openRun ds).highest ∧
      ((c.openRun ds).openDatagram data).2.window = (c.openRun ds).window := by
  obtain ⟨hwin, hkeys, hnodup⟩ := openRun_spec h.window h.authentic List.nodup_nil ds
  have hauth := h.authentic.sameKeys hkeys
  set c' := c.openRun ds
  refine ⟨hnodup, ?_, ?_⟩
  · intro n data hlog hnot hdist hlate
    rw [abs_le] at hdist
    have hlen := (List.getElem?_eq_some_iff.1 hlog).1
    have hmax := length_sealRun_le (c := peer) rs 0 (by norm_num)
    obtain ⟨r, -, rfl⟩ : ∃ r, rs[n]? = some r ∧ peer.datagramAt n r = data := by
      have hmap := getElem?_sealRun h.peerReady rs 0 n (by omega)
      rw [hlog, Nat.zero_add] at hmap
      exact Option.map_eq_some_iff.1 hmap.symm
    obtain ⟨hsent, hshape⟩ := datagramAt_shape peer n r
    set data := peer.datagramAt n r
    rw [← BitVec.ofInt_natCast] at hsent
    constructor
    · -- half a turn ahead, the number is taken for one long past
      rintro ⟨o, ho⟩ hhalf
      rcases c'.openDatagram_cases data with ⟨drop, heq⟩ | ⟨plain, heq, hhigh, hrefused, -⟩
      · rw [heq] at ho
        cases ho
      · have hnum := number_highFor_half hhalf
        rw [← hsent] at hnum
        have hexp : c'.opened = true → c'.nextExpected = c'.highest + 1 := fun ho => by
          rw [nextExpected, if_pos ho]
        cases hopened : c'.opened with
        | false =>
          have hzero : c'.nextExpected = 0 := by rw [nextExpected, hopened]; rfl
          unfold number at hnum
          omega
        | true =>
          have hle := hexp hopened
          have hnear := (hwin.refused_eq_none_iff.1 hrefused hopened (by omega)).1
          omega
    · intro hne
      have hnum : number (c'.highFor (sentLow data)) (sentLow data) = n := by
        rw [hsent]
        exact number_highFor_near (by omega) (by omega)
      refine openDatagram_ok (hkeys.ready.trans h.ready) hshape ?_ ?_ ?_
      · unfold number at hnum
        omega
      · rw [hwin.refused_eq_none_iff, hnum]
        exact fun hopened hle => ⟨hlate hopened, hnot⟩
      · refine (hauth _ data).2 ⟨n, hlog, ?_⟩
        have hhalves : number (c'.highFor (sentLow data)) (sentLow data) =
            number ((n : ℤ) / 2 ^ 32) (BitVec.ofNat 32 n) := by
          rw [hnum]
          unfold number
          rw [BitVec.toNat_ofNat]
          omega
        obtain ⟨hh, hl⟩ := number_inj.1 hhalves
        rw [hh, hl]
  · intro data drop herr
    rcases c'.openDatagram_cases data with ⟨drop', heq⟩ | ⟨plain, heq, -⟩
    · rw [heq]
      cases drop' <;> exact ⟨rfl, rfl, rfl⟩
    · rw [heq] at herr
      cases herr

/-! ## A cipher to try it on -/

/-- An AEAD that opens exactly what is in a log of sealed datagrams. -/
def loggedAead (iv : ℕ → Byte) (log : List (List Byte)) : DirectionAead where
  seals _ _ plain := plain ++ List.replicate 16 0
  opens nonce header body :=
    if (List.range log.length).any fun n =>
        log[n]? == some (header ++ body) &&
          nonce == nonceFor iv ((n : ℤ) / 2 ^ 32) (BitVec.ofNat 32 n) then
      some (body.take (body.length - 16))
    else none
  length_seals _ _ _ := by simp

/-- A cipher with its keys, that opens what is in the log. -/
def fresh (log : List (List Byte)) : SessionCipher where
  localRandom := List.replicate 16 0
  localRandom_length := rfl
  ready := true
  send := loggedAead (fun _ => 0) []
  receive := loggedAead (fun _ => 0) log
  sendIv := fun _ => 0
  receiveIv := fun _ => 0
  sendHigh := 0
  sendLow := 0
  opened := false
  highHigh := 0
  highLow := 0
  window := PackedBits.allClear 32
  forged := 0
  replayed := 0
  late := 0

theorem authentic_fresh (log : List (List Byte)) : Authentic (fresh log) log := by
  intro nonce data
  change (DirectionAead.opens (loggedAead _ log) _ _ _).isSome = true ↔ _
  simp only [loggedAead, List.take_append_drop]
  constructor
  · intro h
    split at h
    · rename_i hany
      simp only [List.any_eq_true, Bool.and_eq_true, beq_iff_eq] at hany
      obtain ⟨n, -, hlog, hnonce⟩ := hany
      exact ⟨n, hlog, hnonce⟩
    · simp at h
  · rintro ⟨n, hlog, hnonce⟩
    rw [if_pos]
    · rfl
    · simp only [List.any_eq_true, List.mem_range, Bool.and_eq_true, beq_iff_eq]
      exact ⟨n, (List.getElem?_eq_some_iff.1 hlog).1, hlog, hnonce⟩

theorem keyed_fresh (rs : List Request) :
    Keyed (fresh (sealRun ((fresh []).atNumber 0) rs)) (fresh []) rs :=
  ⟨rfl, rfl, rfl, rfl, authentic_fresh _⟩

/-- Three datagrams, the last of them a hello. -/
def threeRequests : List Request := [([1], false, 0), ([2], false, 0), ([3], true, 7)]

/-- The third of three datagrams is opened when it comes first, and then the first. -/
theorem replay_safety_threeRequests :
    ∃ o, ((fresh (sealRun ((fresh []).atNumber 0) threeRequests)).openRun
      [(fresh []).datagramAt 2 ([3], true, 7)] |>.openDatagram
        ((fresh []).datagramAt 0 ([1], false, 0))).1 = .ok o :=
  ((replay_safety (keyed_fresh threeRequests) [(fresh []).datagramAt 2 ([3], true, 7)]).2.1 0 _
    rfl (by decide) (by decide) (by decide)).2 (by decide)

/-- The first datagram to arrive is the peer's number `2 ^ 31`, a gap of `2 ^ 31` datagrams:
it is dropped as late. -/
theorem gap_of_half_a_turn_is_late :
    ∃ (c peer : SessionCipher) (rs : List Request) (data : List Byte), Keyed c peer rs ∧
      (sealRun (peer.atNumber 0) rs)[2 ^ 31]? = some data ∧
      c.nextExpected = 0 ∧ (c.openDatagram data).1 = .error .late := by
  set rs : List Request := List.replicate (2 ^ 31 + 1) ([], false, 0) with hrs
  refine ⟨fresh (sealRun ((fresh []).atNumber 0) rs), fresh [], rs,
    (fresh []).datagramAt (2 ^ 31) ([], false, 0), keyed_fresh rs, ?_, rfl, ?_⟩
  · rw [getElem?_sealRun rfl rs 0 (2 ^ 31) (by norm_num), List.getElem?_replicate]
    rfl
  · rfl

end SessionCipher
end CrossByte
