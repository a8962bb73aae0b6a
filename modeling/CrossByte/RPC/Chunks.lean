import CrossByte.ByteArrayInput
import CrossByte.Lib.Serial

/-!
# Answers that arrive in pieces

`RPCChunks`, as far as it takes in an answer of the peer's.  An answer in pieces is the bytes
of one frame: its flags, its op, the id of the request, and its value.  Most are put together
and the frame is read as any other.  An answer that is one `Bytes` and nothing else is put
together in the `Bytes` its call is answered with: `decide` reads the head itself, and from
then on the pieces go where the value is.

So there are two readers of the same head.  The ordinary one reads varints with `readVarUInt`,
which refuses a fifth byte with more than the last four bits of 32.  The loop of `decide` has no
such check: what a fifth byte has above its low four bits is shifted off the top, and
`2 ^ 32 + 1` reads as `1`.

## Main results

* `Parsed.reads_iff`: of a head that the loop of `decide` reads, exactly when the ordinary reader
  reads it, and then as the same.
* `direct_reads_iff`: so it is of an answer in any pieces that is answered with directly.
* `overlong_is_answered`: one that is answered and would not have been read.
-/

namespace CrossByte

open Bytes (Byte)
open Serial (Word)
open Parse

namespace RPCWire

def FLAG_RESPONSE : Byte := 0x02
def FLAG_ERROR : Byte := 0x04
def FLAG_RUNTIME : Byte := 0x08
def MIN_PAYLOAD_LEN : ℕ := 5

end RPCWire

namespace RPCChunks

/-! ## The code -/

/-- What the session knows: which ops answer with `Bytes`, and its largest answer so far. -/
structure Session where
  /-- `__rpc_answersBytes`; of no op when there are no commands. -/
  answersBytes : Word → Bool
  largest : ℕ

/-- The `Bytes` an answer is put together in, and how much of it is in. -/
structure Direct where
  op : Word
  requestId : Word
  bytes : List Byte

/-- `IncomingAnswer`.  The buffer is the frame's bytes past its length. -/
structure IncomingAnswer where
  total : ℕ
  buffer : List Byte
  held : ℕ
  decided : Bool
  direct : Option Direct

/-- The loop of `decide` that reads a varint, `shift` bits of `result` read. -/
def varLoop (shift : ℕ) (result : Word) : List Byte → Option (Word × List Byte)
  | [] => none
  | b :: rest =>
    if 28 < shift then none
    else
      let result := result ||| ((b &&& 0x7F#8).setWidth 32 <<< shift)
      if b &&& 0x80#8 ≠ 0 then varLoop (shift + 7) result rest else some (result, rest)

/-- The head as `decide` reads it: the request's id, the count, and the bytes after. -/
def readHead (bytes : List Byte) : Option (Word × Word × List Byte) := do
  let (requestId, bytes) ← varLoop 0 0 bytes
  let (count, bytes) ← varLoop 0 0 bytes
  some (requestId, count, bytes)

def mayHold (session : Session) (answer : IncomingAnswer) (arrived : ℕ) : Bool :=
  answer.total ≤ session.largest ∨ answer.total ≤ arrived * 4

def decide (session : Session) (answer : IncomingAnswer) : IncomingAnswer :=
  match answer.buffer with
  | flags :: a :: b :: c :: d :: rest =>
    let op := Bytes.getInt d c b a
    if flags ≠ RPCWire.FLAG_RESPONSE then { answer with decided := true }
    else if !session.answersBytes op then { answer with decided := true }
    else
      match readHead rest with
      | none => { answer with decided := true }
      | some (requestId, count, already) =>
        let head := answer.held - already.length
        if count.toInt < 0 ∨ head + count.toInt ≠ answer.total then { answer with decided := true }
        else if !mayHold session answer answer.held then answer
        else { answer with decided := true, buffer := [], direct := some ⟨op, requestId, already⟩ }
  | _ => answer

/-- `StringTools.hex` of a byte, in two digits. -/
def hex (b : Byte) : String :=
  let digit (n : ℕ) : Char := "0123456789ABCDEF".toList.getD n '0'
  String.ofList [digit (b.toNat / 16), digit (b.toNat % 16)]

/-- What `arrived` does of a first piece, before it takes it: a new answer. -/
def begin (maxLength total : ℤ) (piece : List Byte) : Except Thrown IncomingAnswer :=
  if total < RPCWire.MIN_PAYLOAD_LEN ∨ (0 < maxLength ∧ maxLength < total) then
    .error (.text ("RPC answer in pieces of " ++ toString total ++ " bytes passed the " ++
      toString maxLength ++ "-byte frame limit"))
  else if 0x7FFFFFFF - 4 < total then
    .error (.text ("RPC answer in pieces of " ++ toString total ++
      " bytes is past the largest frame a buffer holds"))
  else
    match piece with
    | [] => .error (.text "RPC answer in pieces began with nothing")
    | flags :: _ =>
      if flags &&& ~~~(RPCWire.FLAG_RUNTIME ||| RPCWire.FLAG_ERROR) ≠ RPCWire.FLAG_RESPONSE then
        .error (.text ("RPC frame in pieces is not an answer: flags 0x" ++ hex flags))
      else .ok ⟨total.toNat, [], 0, false, none⟩

/-- A piece put with the others. -/
def append (answer : IncomingAnswer) (piece : List Byte) : IncomingAnswer :=
  match answer.direct with
  | some d =>
    { answer with held := answer.held + piece.length, direct := some { d with bytes := d.bytes ++ piece } }
  | none =>
    { answer with held := answer.held + piece.length, buffer := answer.buffer ++ piece }

/-- `arrived`, of a piece of an answer that has begun. -/
def arrived (session : Session) (answer : IncomingAnswer) (piece : List Byte) :
    Except Thrown IncomingAnswer :=
  if answer.total - answer.held < piece.length then
    .error (.text ("RPC answer in pieces ran past the " ++ toString answer.total ++
      " bytes it said it was"))
  else if piece = [] then .ok answer
  else
    let after := append answer piece
    if answer.direct.isNone ∧ !answer.decided ∧ (15 ≤ after.held ∨ after.held = answer.total) then
      .ok (decide session after)
    else .ok after

/-- What an answer comes to: its call answered with its value, or a frame to read. -/
inductive Answered where
  | value (op requestId : Word) (bytes : List Byte)
  | frame (bytes : List Byte)
  deriving DecidableEq

/-- The end of `arrived`, of a last piece. -/
def finish (answer : IncomingAnswer) : Except Thrown Answered :=
  if answer.held ≠ answer.total then
    .error (.text ("RPC answer in pieces ended at " ++ toString answer.held ++ " of the " ++
      toString answer.total ++ " bytes it said it was"))
  else
    match answer.direct with
    | some d => .ok (.value d.op d.requestId d.bytes)
    | none => .ok (.frame answer.buffer)

/-- An answer in pieces, the session as it is at each of them. -/
def assemble (maxLength total : ℤ) (pieces : List (Session × List Byte)) : Except Thrown Answered := do
  let answer ← begin maxLength total (pieces.headD (⟨fun _ => false, 0⟩, [])).2
  let answer ← pieces.foldlM (fun answer p => arrived p.1 answer p.2) answer
  finish answer

/-- The ordinary reader of such an answer: a frame's flags and op, the request's id, and a
`Bytes`. -/
def readAnswer : Parser Thrown (Word × Word × List Byte) := do
  let _ ← ByteArrayInput.readByte
  let a ← ByteArrayInput.readByte
  let b ← ByteArrayInput.readByte
  let c ← ByteArrayInput.readByte
  let d ← ByteArrayInput.readByte
  let requestId ← ByteArrayInput.readVarUInt
  let count ← ByteArrayInput.readVarUInt
  let left ← remaining
  if count.toInt < 0 ∨ count.toInt > left then fail (.text "RPC frame names more than it holds")
  else fun bytes =>
    .ok ((Bytes.getInt d c b a, requestId, bytes.take count.toNat), bytes.drop count.toNat)

/-! ## The two readers of a varint -/

/-- More bytes of the varint follow. -/
def continues (b : Byte) : Bool := b &&& 0x80#8 ≠ 0

/-- The varint at the front, `k` bytes of it read, has no fifth byte with more than the last four
bits. -/
def SmallFrom (k : ℕ) (bytes : List Byte) : Prop :=
  ∀ b, bytes[4 - k]? = some b → (∀ c ∈ bytes.take (4 - k), continues c) → b.toNat ≤ 0x0F

/-- The varint at the front has no fifth byte with more than the last four bits of 32. -/
def Small (bytes : List Byte) : Prop := SmallFrom 0 bytes

/-- What follows the varint at the front. -/
def afterVarint (bytes : List Byte) : List Byte := (bytes.dropWhile continues).tail

variable {v result : Word} {bytes rest more : List Byte} {k shift : ℕ}

theorem varLoop_append (h : varLoop shift result bytes = some (v, rest)) (more : List Byte) :
    varLoop shift result (bytes ++ more) = some (v, rest ++ more) := by
  induction bytes generalizing shift result with
  | nil => cases h
  | cons b bytes ih =>
    rw [varLoop] at h
    rw [List.cons_append, varLoop]
    split at h
    · cases h
    · next hs =>
      rw [if_neg hs]
      split at h
      · next hc =>
        rw [if_pos hc]
        exact ih h
      · next hc =>
        obtain ⟨rfl, rfl⟩ := Prod.mk.inj (Option.some.inj h)
        rw [if_neg hc]

theorem rest_of_varLoop (h : varLoop shift result bytes = some (v, rest)) :
    rest = afterVarint bytes := by
  induction bytes generalizing shift result with
  | nil => cases h
  | cons b bytes ih =>
    rw [varLoop] at h
    split at h
    · cases h
    · split at h
      · next hc =>
        have hb : continues b = true := by simpa [continues] using hc
        rw [afterVarint, List.dropWhile_cons_of_pos hb]
        exact ih h
      · next hc =>
        have hb : ¬ continues b = true := by simpa [continues] using hc
        obtain ⟨-, rfl⟩ := Prod.mk.inj (Option.some.inj h)
        rw [afterVarint, List.dropWhile_cons_of_neg hb, List.tail_cons]

theorem smallFrom_cons {b : Byte} (hk : k < 4) (hb : continues b = true) :
    SmallFrom k (b :: bytes) ↔ SmallFrom (k + 1) bytes := by
  obtain ⟨n, hn⟩ : ∃ n, 4 - k = n + 1 := ⟨3 - k, by omega⟩
  have hn' : 4 - (k + 1) = n := by omega
  simp only [SmallFrom, hn, hn', List.getElem?_cons_succ, List.take_succ_cons, List.forall_mem_cons,
    hb, true_and]

/-- **The two loops read alike, but for a fifth byte that is too large.** -/
theorem readLoop_of_varLoop (hk : k ≤ 4) (h : varLoop (7 * k) result bytes = some (v, rest)) :
    (SmallFrom k bytes → Varint.readLoop (7 * k) result bytes = .ok (v, rest)) ∧
      (¬ SmallFrom k bytes → Varint.readLoop (7 * k) result bytes = .error .overflow) := by
  induction bytes generalizing k result with
  | nil => cases h
  | cons b bytes ih =>
    rw [varLoop, if_neg (by omega)] at h
    rw [Varint.readLoop]
    split at h
    · next hc =>
      have hb : continues b = true := by simpa [continues] using hc
      have hlt : k < 4 := by
        by_contra hge
        obtain rfl : k = 4 := by omega
        -- a sixth byte is asked for
        cases bytes with
        | nil => cases h
        | cons c bytes => simp [varLoop] at h
      rw [if_neg (by omega)]
      rw [if_neg hc, smallFrom_cons hlt hb]
      exact ih (by omega) h
    · next hc =>
      have hc : b &&& 0x80#8 = 0 := not_not.1 hc
      have hb : continues b = false := by simpa [continues] using hc
      rw [if_pos hc]
      rcases Nat.lt_or_ge k 4 with hlt | hge
      · rw [if_neg (by omega)]
        refine ⟨fun _ => congrArg Except.ok (Option.some.inj h), fun hn => absurd ?_ hn⟩
        intro x _ hall
        obtain ⟨n, hn⟩ : ∃ n, 4 - k = n + 1 := ⟨3 - k, by omega⟩
        have := hall b (by rw [hn]; exact List.mem_cons_self)
        rw [hb] at this
        cases this
      · obtain rfl : k = 4 := by omega
        have hsmall : SmallFrom 4 (b :: bytes) ↔ b.toNat ≤ 0x0F := by simp [SmallFrom]
        rw [hsmall]
        refine ⟨fun hle => ?_, fun hgt => ?_⟩
        · rw [if_neg (by omega)]
          exact congrArg Except.ok (Option.some.inj h)
        · rw [if_pos ⟨rfl, by omega⟩, if_neg (not_not.2 hc)]

/-- What the ordinary reader of varints makes of one that the loop of `decide` reads. -/
theorem readVarUInt_of_varLoop (h : varLoop 0 0 bytes = some (v, rest)) :
    (Small bytes → ByteArrayInput.readVarUInt.run bytes = .ok (v, rest)) ∧
      (¬ Small bytes → ByteArrayInput.readVarUInt.run bytes =
        .error (.rangeError "varuint overflow")) := by
  have hrun : ByteArrayInput.readVarUInt.run bytes =
      (Varint.readLoop 0 0 bytes).mapError ByteArrayInput.varUIntError := rfl
  obtain ⟨hok, herr⟩ := readLoop_of_varLoop (k := 0) (by decide) h
  exact ⟨fun hs => by rw [hrun, hok hs]; rfl, fun hs => by rw [hrun, herr hs]; rfl⟩

/-! ## The two readers of a head -/

/-- The bytes of an answer so far, of which `decide` has read the head, and the rest of which is
the value's. -/
structure Parsed (whole : List Byte) (count : Word) (d : Direct) : Prop where
  head : ∃ a b c e rest, whole = RPCWire.FLAG_RESPONSE :: a :: b :: c :: e :: rest ∧
    d.op = Bytes.getInt e c b a ∧ readHead rest = some (d.requestId, count, d.bytes)

theorem readHead_eq_some {requestId count : Word} :
    readHead bytes = some (requestId, count, rest) ↔
      ∃ middle, varLoop 0 0 bytes = some (requestId, middle) ∧
        varLoop 0 0 middle = some (count, rest) := by
  simp only [readHead, Option.bind_eq_bind, Option.bind_eq_some_iff, Option.some.injEq,
    Prod.mk.injEq, Prod.exists]
  constructor
  · rintro ⟨w, middle, h₁, c, r, h₂, rfl, rfl, rfl⟩
    exact ⟨middle, h₁, h₂⟩
  · rintro ⟨middle, h₁, h₂⟩
    exact ⟨_, middle, h₁, _, _, h₂, rfl, rfl, rfl⟩

theorem Parsed.append {whole : List Byte} {count : Word} {d : Direct} (h : Parsed whole count d)
    (piece : List Byte) : Parsed (whole ++ piece) count { d with bytes := d.bytes ++ piece } := by
  obtain ⟨a, b, c, e, rest, rfl, hop, hhead⟩ := h.head
  obtain ⟨middle, h₁, h₂⟩ := readHead_eq_some.1 hhead
  refine ⟨a, b, c, e, rest ++ piece, rfl, hop, readHead_eq_some.2 ?_⟩
  exact ⟨middle ++ piece, varLoop_append h₁ piece, varLoop_append h₂ piece⟩

/-- **Of an answer whose head `decide` has read and whose value is all there, when the ordinary
reader reads it as the same.** -/
theorem Parsed.reads_iff {whole : List Byte} {count : Word} {d : Direct} (h : Parsed whole count d)
    (hcount : count.toInt = d.bytes.length) :
    readAnswer.run whole = .ok ((d.op, d.requestId, d.bytes), []) ↔
      Small (whole.drop 5) ∧ Small (afterVarint (whole.drop 5)) := by
  obtain ⟨a, b, c, e, rest, rfl, hop, hhead⟩ := h.head
  obtain ⟨middle, h₁, h₂⟩ := readHead_eq_some.1 hhead
  have hmiddle := rest_of_varLoop h₁
  have hread : ∀ x : Byte, ∀ l, ByteArrayInput.readByte.run (x :: l) = .ok (x, l) := fun _ _ => rfl
  have hcountNat : count.toNat = d.bytes.length := by
    have hcond := BitVec.toInt_eq_toNat_cond count
    split at hcond <;> omega
  rw [List.drop_succ_cons, List.drop_succ_cons, List.drop_succ_cons, List.drop_succ_cons,
    List.drop_succ_cons, List.drop_zero, ← hmiddle]
  simp only [readAnswer, run_bind, hread]
  obtain ⟨hok₁, herr₁⟩ := readVarUInt_of_varLoop h₁
  obtain ⟨hok₂, herr₂⟩ := readVarUInt_of_varLoop h₂
  by_cases hs₁ : Small rest
  · rw [hok₁ hs₁]
    dsimp only
    by_cases hs₂ : Small middle
    · rw [hok₂ hs₂]
      have hroom : ¬ (count.toInt < 0 ∨ count.toInt > (d.bytes.length : ℤ)) := by omega
      have hleft : (remaining : Parser Thrown ℕ).run d.bytes = .ok (d.bytes.length, d.bytes) := rfl
      simp only [hleft, if_neg hroom, hs₁, hs₂, and_self, iff_true]
      change Except.ok ((Bytes.getInt e c b a, d.requestId, d.bytes.take count.toNat),
        d.bytes.drop count.toNat) = _
      rw [hcountNat, List.take_length, List.drop_length, hop]
    · rw [herr₂ hs₂]
      simp [hs₂]
  · rw [herr₁ hs₁]
    simp [hs₁]

/-! ## Any pieces -/

/-- What is known of an answer once the bytes `whole` of it are in. -/
structure Holds (whole : List Byte) (answer : IncomingAnswer) : Prop where
  held : answer.held = whole.length
  frame : answer.direct = none → answer.buffer = whole
  direct : ∀ d, answer.direct = some d → ∃ count, Parsed whole count d ∧
    whole.length - d.bytes.length + count.toInt = answer.total

variable {whole piece : List Byte} {answer after : IncomingAnswer} {session : Session}

theorem varLoop_length (h : varLoop shift result bytes = some (v, rest)) :
    rest.length ≤ bytes.length := by
  rw [rest_of_varLoop h, afterVarint, List.length_tail]
  have := (List.dropWhile_sublist continues (l := bytes)).length_le
  omega

theorem Parsed.length_le {count : Word} {d : Direct} (h : Parsed whole count d) :
    d.bytes.length ≤ whole.length := by
  obtain ⟨a, b, c, e, rest, rfl, -, hhead⟩ := h.head
  obtain ⟨middle, h₁, h₂⟩ := readHead_eq_some.1 hhead
  have h₁ := varLoop_length h₁
  have h₂ := varLoop_length h₂
  simp only [List.length_cons]
  omega

section

variable (h : Holds whole answer)

include h

theorem Holds.append (piece : List Byte) : Holds (whole ++ piece) (append answer piece) := by
  unfold RPCChunks.append
  cases hd : answer.direct with
  | none =>
    refine ⟨by simp [h.held], fun _ => ?_, fun d hd' => ?_⟩
    · exact congrArg (· ++ piece) (h.frame hd)
    · cases hd'
  | some d =>
    refine ⟨by simp [h.held], fun hn => (by cases hn), fun d' hd' => ?_⟩
    obtain rfl := Option.some.inj hd'
    obtain ⟨count, hp, hc⟩ := h.direct d hd
    refine ⟨count, hp.append piece, ?_⟩
    simp only [List.length_append]
    omega

theorem Holds.decide (hd : answer.direct = none) : Holds whole (decide session answer) := by
  have hdecided : Holds whole { answer with decided := true } := ⟨h.held, h.frame, h.direct⟩
  unfold RPCChunks.decide
  split
  · next flags a b c d rest hb =>
    dsimp only
    split
    · exact hdecided
    · next hf =>
      split
      · exact hdecided
      · split
        · exact hdecided
        · next requestId count already hr =>
          split
          · exact hdecided
          · next hcount =>
            split
            · exact h
            · refine ⟨h.held, fun hn => (by cases hn), fun d' hd' => ?_⟩
              obtain rfl := Option.some.inj hd'
              have hwhole : whole = flags :: a :: b :: c :: d :: rest := (h.frame hd).symm.trans hb
              have hp : Parsed whole count ⟨Bytes.getInt d c b a, requestId, already⟩ :=
                ⟨a, b, c, d, rest, by rw [hwhole, not_not.1 hf], rfl, hr⟩
              have hle := hp.length_le
              have hheld := h.held
              refine ⟨count, hp, ?_⟩
              dsimp only at hle ⊢
              omega
  · exact h

theorem Holds.arrived (ha : arrived session answer piece = .ok after) :
    Holds (whole ++ piece) after := by
  unfold RPCChunks.arrived at ha
  split at ha
  · cases ha
  · split at ha
    · next hp =>
      obtain rfl := Except.ok.inj ha
      rw [hp, List.append_nil]
      exact h
    · dsimp only at ha
      split at ha
      · next hd =>
        obtain rfl := Except.ok.inj ha
        have hnone : answer.direct = none := by simpa using hd.1
        exact (h.append piece).decide (by simp [RPCChunks.append, hnone])
      · obtain rfl := Except.ok.inj ha
        exact h.append piece

theorem Holds.pieces {pieces : List (Session × List Byte)}
    (hp : pieces.foldlM (fun answer p => RPCChunks.arrived p.1 answer p.2) answer = .ok after) :
    Holds (whole ++ (pieces.map Prod.snd).flatten) after := by
  induction pieces generalizing whole answer with
  | nil =>
    obtain rfl := Except.ok.inj hp
    simpa using h
  | cons p pieces ih =>
    rw [List.foldlM_cons] at hp
    cases ha : RPCChunks.arrived p.1 answer p.2 with
    | error e =>
      rw [ha] at hp
      cases hp
    | ok mid =>
      rw [ha] at hp
      have := ih (h.arrived ha) hp
      rwa [List.append_assoc] at this

end

/-- **An answer that is answered with directly is read by the ordinary reader, and as the same,
exactly if neither of its two numbers has a fifth byte with more than the last four bits of 32.**
The answer is any bytes, in any pieces, whatever the session makes of its room at each. -/
theorem direct_reads_iff (maxLength total : ℤ) (pieces : List (Session × List Byte))
    (op requestId : Word) (bytes : List Byte)
    (h : assemble maxLength total pieces = .ok (.value op requestId bytes)) :
    readAnswer.run (pieces.map Prod.snd).flatten = .ok ((op, requestId, bytes), []) ↔
      Small ((pieces.map Prod.snd).flatten.drop 5) ∧
        Small (afterVarint ((pieces.map Prod.snd).flatten.drop 5)) := by
  unfold assemble at h
  cases hb : begin maxLength total (pieces.headD (⟨fun _ => false, 0⟩, [])).2 with
  | error e =>
    rw [hb] at h
    cases h
  | ok start =>
    rw [hb] at h
    cases hf : pieces.foldlM (fun answer p => RPCChunks.arrived p.1 answer p.2) start with
    | error e =>
      simp only [bind, Except.bind, hf] at h
      cases h
    | ok last =>
      simp only [bind, Except.bind, hf] at h
      have hstart : Holds [] start := by
        unfold RPCChunks.begin at hb
        split at hb
        · cases hb
        · split at hb
          · cases hb
          · split at hb
            · cases hb
            · split at hb
              · cases hb
              · obtain rfl := Except.ok.inj hb
                exact ⟨rfl, fun _ => rfl, fun d hd => by cases hd⟩
      have hlast := hstart.pieces hf
      unfold finish at h
      split at h
      · cases h
      · next htotal =>
        split at h
        · next d hd =>
          obtain ⟨count, hp, hc⟩ := hlast.direct d hd
          obtain ⟨rfl, rfl, rfl⟩ : d.op = op ∧ d.requestId = requestId ∧ d.bytes = bytes := by
            simpa using Except.ok.inj h
          have hheld := hlast.held
          exact hp.reads_iff (by omega)
        · cases Except.ok.inj h

/-- The head of an answer to request 1 that holds nothing, its id written with `2 ^ 32` added. -/
def overlong : List Byte := [0x02, 7, 0, 0, 0, 0x81, 0x80, 0x80, 0x80, 0x10, 0x00]

/-- An answer that is answered with directly and that the ordinary reader does not read. -/
theorem overlong_is_answered :
    assemble 0 11 [(⟨fun _ => true, 0⟩, overlong)] = .ok (.value 7 1 []) ∧
      readAnswer.run overlong = .error (.rangeError "varuint overflow") := by
  constructor <;> decide +kernel

/-- The same answer with its id as it is written, in two pieces. -/
theorem direct_reads_answer :
    assemble 0 9 [(⟨fun _ => true, 9⟩, [0x02, 7, 0, 0, 0, 0x01]), (⟨fun _ => true, 9⟩, [0x02, 8, 9])] =
        .ok (.value 7 1 [8, 9]) ∧
      (readAnswer.run [0x02, 7, 0, 0, 0, 0x01, 0x02, 8, 9] = .ok ((7, 1, [8, 9]), []) ↔
        Small [0x01, 0x02, 8, 9] ∧ Small (afterVarint [0x01, 0x02, 8, 9])) := by
  have h : assemble 0 9 [(⟨fun _ => true, 9⟩, [0x02, 7, 0, 0, 0, 0x01]),
      (⟨fun _ => true, 9⟩, [0x02, 8, 9])] = .ok (.value 7 1 [8, 9]) := by decide +kernel
  exact ⟨h, direct_reads_iff 0 9 _ 7 1 [8, 9] h⟩

end RPCChunks

end CrossByte
