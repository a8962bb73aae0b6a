import CrossByte.Http.H2.HpackWire
import CrossByte.Lib.Runs

/-!
# The HPACK encoder and decoder stay in step

An exchange is an encoder and the decoder its blocks go to.  The encoder's table is not a copy of
the decoder's: it may be the smaller of the two, and a capacity set twice between blocks empties it
of entries the decoder keeps.  What holds is that its entries are a prefix of the decoder's, newest
first (`Follows`), and that is enough for every index it writes.

## Main results

* `in_step`: every field comes out as it went in, in order and with its mark; the prefix, the
  accounting of both tables, and that only unmarked fields are in them.  It needs every capacity
  the encoder is given to be below `2 ^ 25 + 31`: the size update of a larger one is refused
  (`large_capacity_is_refused`).
-/

namespace CrossByte

open Bytes (Byte)
open FittingPrefix Runs
open HpackEncoder HpackDecoder
open WrappingInt (wrap)

/-! ## What the encoder writes -/

/-- The literal `__writeString` writes. -/
def literalOf (s : String) : HpackLiteral :=
  if HpackHuffman.encodedLength (ofString s) < (ofString s).length then
    ⟨ofString s, true, HpackHuffman.encode (ofString s), HpackHuffman.codedAs_encode _⟩
  else ⟨ofString s, false, ofString s, rfl⟩

theorem literalOf_octets (s : String) : (literalOf s).octets = ofString s := by
  unfold literalOf
  split <;> rfl

theorem literalOf_readable {s : String} (h : (ofString s).length < 2 ^ 25) :
    Readable (literalOf s).bytes.length 7 := by
  unfold literalOf Readable
  split
  · rename_i hshorter
    have hbits := HpackHuffman.bitCount_le (ofString s)
    rw [(HpackHuffman.encodedLength_eq_iff _).2 (by omega)] at hshorter
    simp only
    omega
  · simp only
    omega

variable {p : Pass}

namespace HpackEncoder

variable {e : HpackEncoder} {E D : HpackDynamicTable} {h : HpackHeader}

theorem writeString_eq (e : HpackEncoder) (s : String) :
    e.writeString s = e.writeBytes (literalOf s).wire := by
  unfold writeString literalOf HpackLiteral.wire
  dsimp only
  split <;> simp [writeInteger, writeBytes]

/-- The name `__writeLiteral` writes. -/
def fieldName (t : HpackDynamicTable) (name : String) : HpackName :=
  if nameIndex t name > 0 then .index (nameIndex t name) else .literal (literalOf name)

theorem writeLiteral_eq (e : HpackEncoder) (x : HpackIndexing) (name value : String) :
    e.writeLiteral name value x.prefixBits x.pattern =
      e.writeBytes (HpackRepresentation.literal x (fieldName e.table name) (literalOf value)).wire := by
  unfold writeLiteral fieldName
  dsimp only
  split <;> simp [writeString_eq, writeInteger, writeBytes, HpackRepresentation.wire]

/-- The representation `add` writes. -/
def represent (t : HpackDynamicTable) (h : HpackHeader) : HpackRepresentation :=
  if h.sensitive then .literal .never (fieldName t h.name) (literalOf h.value)
  else
    match pairIndex t h.name h.value with
    | some i => .indexed i
    | none => .literal .incremental (fieldName t h.name) (literalOf h.value)

/-- Whether the representation asks for an entry of the table. -/
def enters (t : HpackDynamicTable) (h : HpackHeader) : Bool :=
  !h.sensitive && (pairIndex t h.name h.value).isNone

/-- A table after a field the encoder wrote with its own table `E`. -/
def after (E D : HpackDynamicTable) (h : HpackHeader) : HpackDynamicTable :=
  if enters E h then D.add h else D

/-- `add` writes a representation, and enters the field where the decoder will. -/
theorem add_eq (e : HpackEncoder) (h : HpackHeader) :
    e.add h = { e.writeBytes (represent e.table h).wire with table := after e.table e.table h } := by
  unfold add represent after enters
  cases h.sensitive with
  | true =>
    rw [if_pos rfl]
    exact writeLiteral_eq e .never h.name h.value
  | false =>
    rw [if_neg (by decide), if_neg (by decide), indexed]
    cases pairIndex e.table h.name h.value with
    | some i => rfl
    | none =>
      have hliteral := writeLiteral_eq e .incremental h.name h.value
      rw [show HpackIndexing.incremental.prefixBits = 6 from rfl,
        show HpackIndexing.incremental.pattern = 0x40 from rfl] at hliteral
      simp only [Option.map_none, hliteral, Option.isNone_none, Bool.not_false, Bool.and_true,
        if_true, writeBytes]

/-! ## What the decoder makes of it -/

/-- The entries of one table are the newest of the other's, and none has a mark. -/
structure Follows (E D : HpackDynamicTable) : Prop where
  entries : E.entries <+: D.entries
  encoder : E.Sound
  decoder : D.Sound
  capacity : E.capacity ≤ D.capacity
  unmarked : ∀ e ∈ D.entries, e.sensitive = false

variable {i : ℕ} {f : HpackHeader} {name value : String}

theorem Follows.get (hf : Follows E D) {e : HpackHeader} (h : E.entries[i]? = some e) :
    D.entries[i]? = some e := by
  obtain ⟨t, ht⟩ := hf.entries
  rw [← ht, List.getElem?_append_left (List.getElem?_eq_some_iff.1 h).1]
  exact h

theorem resolve_static (h0 : 0 < i) (hi : i ≤ HpackStaticTable.length)
    (hget : HpackStaticTable.fields[i - 1]? = some f) : resolve D i = .ok f := by
  rw [resolve, if_neg (by omega), if_pos hi, List.getD_eq_getElem?_getD, hget, Option.getD_some]

theorem resolve_dynamic (hget : D.entries[i]? = some f) :
    resolve D (i + HpackStaticTable.length + 1) = .ok f := by
  rw [resolve, if_neg (by omega), if_neg (by omega),
    show i + HpackStaticTable.length + 1 - HpackStaticTable.length - 1 = i by omega, hget]

theorem Follows.resolve_pair (hf : Follows E D) (h : pairIndex E name value = some i) :
    resolve D i = .ok { name, value } := by
  unfold pairIndex at h
  split at h
  · rename_i k hstatic
    cases h
    obtain ⟨h0, hk, hget⟩ := HpackStaticTable.findPair_spec hstatic
    exact resolve_static h0 hk hget
  · obtain ⟨k, hfind, rfl⟩ := Option.map_eq_some_iff.1 h
    obtain ⟨e, hget, rfl, rfl⟩ := HpackDynamicTable.findPair_spec hfind
    have hD := hf.get hget
    have hmark := hf.unmarked e (List.mem_of_getElem? hD)
    rw [resolve_dynamic hD]
    cases e
    simp_all

theorem Follows.resolve_name (hf : Follows E D) (h : nameIndex E name > 0) :
    (resolve D (nameIndex E name)).map HpackHeader.name = .ok name := by
  unfold nameIndex at h ⊢
  split
  · rename_i k hstatic
    obtain ⟨h0, hk, f, hget, rfl⟩ := HpackStaticTable.findName_spec hstatic
    rw [resolve_static h0 hk hget]
    rfl
  · split
    · rename_i k hfind
      obtain ⟨e, hget, rfl⟩ := HpackDynamicTable.findName_spec hfind
      rw [resolve_dynamic (hf.get hget)]
      rfl
    · simp_all

theorem Follows.nameOf (hf : Follows E D) (name : String) :
    HpackDecoder.nameOf D (fieldName E name) = .ok name := by
  unfold fieldName
  split
  · rename_i hpos
    exact hf.resolve_name hpos
  · rw [HpackDecoder.nameOf, literalOf_octets, text_ofString]

/-- What the encoder wrote gives the decoder the field, and its table the same entry. -/
theorem Follows.apply (hf : Follows E D) (d : HpackDecoder) (hp : p.table = D) :
    d.apply p (represent E h) =
      .ok ({ p with table := after E D h }.keep d.maxHeaderListSize h) := by
  subst hp
  unfold represent after enters
  cases hs : h.sensitive with
  | true =>
    rw [if_pos rfl, HpackDecoder.apply, hf.nameOf, literalOf_octets, text_ofString]
    cases h
    simp_all [Except.map]
  | false =>
    rw [if_neg (by decide)]
    cases hpair : pairIndex E h.name h.value with
    | some i =>
      rw [HpackDecoder.apply, hf.resolve_pair hpair]
      cases h
      simp_all [Except.map]
    | none =>
      rw [HpackDecoder.apply, hf.nameOf, literalOf_octets, text_ofString]
      cases h
      simp_all [Except.map]

/-! ## The tables after a field -/

theorem Follows.add (hf : Follows E D) (hlt : D.capacity + h.cost < 2 ^ 31)
    (hmark : h.sensitive = false) : Follows (E.add h) (D.add h) := by
  have hcap := hf.capacity
  obtain ⟨hE, hEcap, hEentries⟩ := hf.encoder.add h (by omega)
  obtain ⟨hD, hDcap, hDentries⟩ := hf.decoder.add h hlt
  refine ⟨?_, hE, hD, by rw [hEcap, hDcap]; exact hcap, fun e he => ?_⟩
  · rw [hEentries, hDentries]
    exact fit_mono ((List.prefix_cons_inj h).2 hf.entries) (by omega)
  · rw [hDentries] at he
    rcases List.mem_cons.1 ((prefix_fit ..).subset he) with rfl | he
    · exact hmark
    · exact hf.unmarked e he

theorem sensitive_of_enters (henters : enters E h = true) : h.sensitive = false := by
  unfold enters at henters
  simp_all

theorem Follows.after (hf : Follows E D)
    (hlt : h.sensitive = false → D.capacity + h.cost < 2 ^ 31) :
    Follows (after E E h) (after E D h) := by
  unfold HpackEncoder.after
  split
  · rename_i henters
    have hmark := sensitive_of_enters henters
    exact hf.add (hlt hmark) hmark
  · exact hf

theorem after_capacity (hD : D.Sound) (hlt : h.sensitive = false → D.capacity + h.cost < 2 ^ 31) :
    (HpackEncoder.after E D h).capacity = D.capacity := by
  unfold HpackEncoder.after
  split
  · rename_i henters
    have hmark := sensitive_of_enters henters
    exact (hD.add h (hlt hmark)).2.1
  · rfl

theorem mem_after (hD : D.Sound) (hlt : h.sensitive = false → D.capacity + h.cost < 2 ^ 31)
    {x : HpackHeader} (hx : x ∈ (HpackEncoder.after E D h).entries) : x = h ∨ x ∈ D.entries := by
  unfold HpackEncoder.after at hx
  split at hx
  · rename_i henters
    have hmark := sensitive_of_enters henters
    rw [(hD.add h (hlt hmark)).2.2] at hx
    exact List.mem_cons.1 ((prefix_fit ..).subset hx)
  · exact .inr hx

/-! ## Every index can be read -/

theorem entries_length_le (hE : E.Sound) : 32 * E.entries.length ≤ E.capacity := by
  have hsize := hE.size_eq
  have hle := hE.size_le
  have hcost : ∀ l : List HpackHeader, 32 * l.length ≤ total HpackHeader.cost l := by
    intro l
    induction l with
    | nil => exact Nat.le_refl 0
    | cons e l ih =>
      rw [total_cons, List.length_cons]
      unfold HpackHeader.cost at *
      omega
  have := hcost E.entries
  omega

theorem pairIndex_le (h : pairIndex E name value = some i) :
    i ≤ HpackStaticTable.length + E.entries.length := by
  unfold pairIndex at h
  split at h
  · rename_i k hstatic
    cases h
    have := (HpackStaticTable.findPair_spec hstatic).2.1
    omega
  · obtain ⟨k, hfind, rfl⟩ := Option.map_eq_some_iff.1 h
    obtain ⟨e, hget, -⟩ := HpackDynamicTable.findPair_spec hfind
    have := (List.getElem?_eq_some_iff.1 hget).1
    omega

theorem nameIndex_le (E : HpackDynamicTable) (name : String) :
    nameIndex E name ≤ HpackStaticTable.length + E.entries.length := by
  unfold nameIndex
  split
  · rename_i k hstatic
    have := (HpackStaticTable.findName_spec hstatic).2.1
    omega
  · split
    · rename_i k hfind
      obtain ⟨e, hget, -⟩ := HpackDynamicTable.findName_spec hfind
      have := (List.getElem?_eq_some_iff.1 hget).1
      omega
    · exact Nat.zero_le _

theorem represent_readable (hE : E.Sound) (hcap : E.capacity < 2 ^ 25 + 31)
    (hname : (ofString h.name).length < 2 ^ 25) (hvalue : (ofString h.value).length < 2 ^ 25) :
    (represent E h).Readable := by
  have hlength := entries_length_le hE
  have hstatic : HpackStaticTable.length = 61 := rfl
  have hliteral : ∀ x : HpackIndexing,
      (HpackRepresentation.literal x (fieldName E h.name) (literalOf h.value)).Readable := by
    intro x
    have hindex := nameIndex_le E h.name
    unfold fieldName
    split
    · rename_i hpos
      refine ⟨hpos, ?_, literalOf_readable hvalue⟩
      unfold Readable
      omega
    · exact ⟨literalOf_readable hname, literalOf_readable hvalue⟩
  unfold represent
  split
  · exact hliteral .never
  · split
    · rename_i i hpair
      have hindex := pairIndex_le hpair
      change Readable i 7
      unfold Readable
      omega
    · exact hliteral .incremental

/-! ## A block -/

/-- The representations of some fields. -/
def representAll : HpackDynamicTable → List HpackHeader → List HpackRepresentation
  | _, [] => []
  | E, h :: hs => represent E h :: representAll (after E E h) hs

/-- A field the decoder can be sent: its strings have lengths that can be read, and an `Int` holds
its size added to the table's. -/
def Sendable (M : ℤ) (h : HpackHeader) : Prop :=
  (ofString h.name).length < 2 ^ 25 ∧ (ofString h.value).length < 2 ^ 25 ∧
    (h.sensitive = false → M + h.cost < 2 ^ 31)

instance (M : ℤ) (h : HpackHeader) : Decidable (Sendable M h) := inferInstanceAs (Decidable (_ ∧ _))

theorem foldl_add_eq (hs : List HpackHeader) (e : HpackEncoder) :
    hs.foldl add e =
      { e.writeBytes ((representAll e.table hs).flatMap HpackRepresentation.wire) with
        table := hs.foldl (fun E h => after E E h) e.table } := by
  induction hs generalizing e with
  | nil => simp [representAll, writeBytes]
  | cons h hs ih =>
    rw [List.foldl_cons, ih, add_eq]
    simp [representAll, writeBytes]

theorem keep_unlimited (hp : p.truncated = false) (h : HpackHeader) :
    p.keep (2 ^ 31 - 1) h =
      { p with
        updatesStillAllowed := false
        listSize := wrap (p.listSize + h.tableSize)
        out := p.out ++ [h] } := by
  have hle : ¬ wrap (p.listSize + h.tableSize) > 2 ^ 31 - 1 := by
    have := Int.bmod_lt (x := p.listSize + h.tableSize) (m := 2 ^ 32) (by decide)
    unfold wrap
    omega
  unfold Pass.keep
  simp only [hp, Bool.false_eq_true, if_false, if_neg hle]

/-- What is kept of a block: the tables, the fields, and what the tables hold. -/
theorem Follows.applyAll (d : HpackDecoder) (hd : d.maxHeaderListSize = 2 ^ 31 - 1) {M : ℤ}
    (hs : List HpackHeader) (hsend : ∀ h ∈ hs, Sendable M h) (hf : Follows E p.table)
    (hM : p.table.capacity ≤ M) (hcap : E.capacity < 2 ^ 25 + 31) (htrunc : p.truncated = false) :
    (∀ r ∈ representAll E hs, r.Readable) ∧ ∃ q, (representAll E hs).foldlM d.apply p = .ok q ∧
      Follows (hs.foldl (fun E h => HpackEncoder.after E E h) E) q.table ∧
      (hs.foldl (fun E h => HpackEncoder.after E E h) E).capacity = E.capacity ∧
      q.table.capacity = p.table.capacity ∧ q.out = p.out ++ hs ∧
      ∀ x ∈ q.table.entries, x ∈ hs ∨ x ∈ p.table.entries := by
  induction hs generalizing E p with
  | nil =>
    exact ⟨nofun, p, rfl, hf, rfl, rfl, (List.append_nil _).symm,
      fun x hx => .inr hx⟩
  | cons h hs ih =>
    obtain ⟨hname, hvalue, hcost⟩ := hsend h List.mem_cons_self
    have hEcap := hf.capacity
    have hltE : h.sensitive = false → E.capacity + h.cost < 2 ^ 31 := fun hm => by
      have := hcost hm
      omega
    have hltD : h.sensitive = false → p.table.capacity + h.cost < 2 ^ 31 := fun hm => by
      have := hcost hm
      omega
    have hcapE := after_capacity (E := E) hf.encoder hltE
    have hcapD := after_capacity (E := E) hf.decoder hltD
    have hkeep := keep_unlimited (p := { p with table := HpackEncoder.after E p.table h }) htrunc h
    obtain ⟨hread, q, hq, hfollows, hqE, hqD, hout, hmem⟩ :=
      ih (fun x hx => hsend x (List.mem_cons_of_mem h hx))
        (p := { p with table := HpackEncoder.after E p.table h }.keep (2 ^ 31 - 1) h)
        (E := HpackEncoder.after E E h)
        (by rw [hkeep]; exact hf.after hltD) (by rw [hkeep]; simp only; omega) (by omega)
        (by rw [hkeep]; exact htrunc)
    refine ⟨fun r hr => ?_, q, ?_, hfollows, hqE.trans hcapE, ?_, ?_, fun x hx => ?_⟩
    · rcases List.mem_cons.1 hr with rfl | hr
      · exact represent_readable hf.encoder hcap hname hvalue
      · exact hread r hr
    · rw [representAll, List.foldlM_cons, hf.apply d rfl, hd]
      exact hq
    · rw [hqD, hkeep]
      exact hcapD
    · rw [hout, hkeep, List.append_assoc]
      rfl
    · rcases hmem x hx with hin | hin
      · exact .inl (List.mem_cons_of_mem h hin)
      · rw [hkeep] at hin
        rcases mem_after hf.decoder hltD hin with rfl | hin
        · exact .inl List.mem_cons_self
        · exact .inr hin

end HpackEncoder

/-! ## Exchanges -/

/-- A call that writes a field. -/
inductive HpackWrite where
  | add (header : HpackHeader)
  | field (name value : String) (sensitive : Bool)
  deriving DecidableEq

namespace HpackWrite

def header : HpackWrite → HpackHeader
  | add h => h
  | field name value sensitive => { name, value, sensitive }

def run (e : HpackEncoder) : HpackWrite → HpackEncoder
  | add h => e.add h
  | field name value sensitive => e.field name value sensitive

theorem run_eq (e : HpackEncoder) (w : HpackWrite) : w.run e = e.add w.header := by
  cases w with
  | add h => rfl
  | field name value sensitive => exact field_eq_add e name value sensitive

theorem foldl_run (ws : List HpackWrite) (e : HpackEncoder) :
    ws.foldl run e = (ws.map header).foldl HpackEncoder.add e := by
  induction ws generalizing e with
  | nil => rfl
  | cons w ws ih => rw [List.foldl_cons, run_eq, ih, List.map_cons, List.foldl_cons]

end HpackWrite

/-- An encoder, the decoder its blocks go to, and what has been sent and got, block by block. -/
structure HpackExchange where
  encoder : HpackEncoder
  decoder : HpackDecoder
  sent : List (List HpackHeader) := []
  got : List (Except HpackError (List HpackHeader)) := []

namespace HpackExchange

/-- What is done to the encoder between two blocks, or a block. -/
inductive Call where
  | setCapacity (value : ℤ)
  | block (writes : List HpackWrite)
  deriving DecidableEq

/-- A new exchange: the capacity the encoder starts with, the largest the decoder allows, and the
limit of its header lists. -/
def new (capacity maxTableCapacity maxHeaderListSize : ℤ) : HpackExchange where
  encoder := .new capacity
  decoder := .new maxTableCapacity maxHeaderListSize

/-- One call, a block decoded as soon as it is written. -/
def step (x : HpackExchange) : Call → HpackExchange
  | .setCapacity value => { x with encoder := x.encoder.setCapacity value }
  | .block ws =>
    let e := ws.foldl HpackWrite.run x.encoder.begin
    let sent := x.sent ++ [ws.map HpackWrite.header]
    match x.decoder.decode e.out with
    | .ok (d, fields) => { encoder := e, decoder := d, sent, got := x.got ++ [.ok fields] }
    | .error err => { x with encoder := e, sent, got := x.got ++ [.error err] }

/-- `encode` writes a block of its fields, each by `add`. -/
theorem encode_eq (x : HpackExchange) (headers : List HpackHeader) (first : Option HpackHeader) :
    (x.step (.block ((first.toList ++ headers).map HpackWrite.add))).encoder =
      x.encoder.encode headers first := by
  have hencode : x.encoder.encode headers first =
      (first.toList ++ headers).foldl HpackEncoder.add x.encoder.begin := by cases first <;> rfl
  have hwrites : ((first.toList ++ headers).map HpackWrite.add).foldl HpackWrite.run
      x.encoder.begin = x.encoder.encode headers first := by
    rw [hencode, List.foldl_map]
    rfl
  unfold step
  dsimp only
  split <;> exact hwrites

/-- Capacities the decoder allows and can read, and fields it can be sent. -/
def Meets (M : ℤ) (_ : HpackExchange) : Call → Prop
  | .setCapacity value => 0 ≤ value ∧ value ≤ M ∧ value < 2 ^ 25 + 31
  | .block ws => ∀ w ∈ ws, Sendable M w.header

instance (M : ℤ) (x : HpackExchange) : ∀ c, Decidable (x.Meets M c)
  | .setCapacity _ => inferInstanceAs (Decidable (_ ∧ _))
  | .block ws => inferInstanceAs (Decidable (∀ w ∈ ws, _))

/-- The invariant of an exchange. -/
structure InStep (M : ℤ) (x : HpackExchange) : Prop where
  entries : x.encoder.table.entries <+: x.decoder.table.entries
  encoder : x.encoder.table.Sound
  decoder : x.decoder.table.Sound
  /-- A change the decoder has not been told of. -/
  pending : 0 ≤ x.encoder.pendingCapacity → x.encoder.pendingCapacity = x.encoder.table.capacity
  capacity : x.encoder.pendingCapacity < 0 → x.encoder.table.capacity ≤ x.decoder.table.capacity
  readable : x.encoder.table.capacity < 2 ^ 25 + 31
  encoder_le : x.encoder.table.capacity ≤ M
  decoder_le : x.decoder.table.capacity ≤ M
  maxTableCapacity : x.decoder.maxTableCapacity = M
  maxHeaderListSize : x.decoder.maxHeaderListSize = 2 ^ 31 - 1
  got : x.got = x.sent.map .ok
  unmarked : ∀ e ∈ x.decoder.table.entries, e.sensitive = false ∧ e ∈ x.sent.flatten

theorem inStep_new {capacity M : ℤ} (h0 : 0 ≤ capacity) (hle : capacity ≤ M) (hM : M < 2 ^ 31)
    (hsmall : capacity < 2 ^ 25 + 31) : (new capacity M (2 ^ 31 - 1)).InStep M where
  entries := List.prefix_refl []
  encoder := HpackDynamicTable.sound_new h0 (by omega)
  decoder := HpackDynamicTable.sound_new (h0.trans hle) hM
  pending h := absurd (show (0 : ℤ) ≤ -1 from h) (by decide)
  capacity _ := hle
  readable := hsmall
  encoder_le := hle
  decoder_le := le_refl M
  maxTableCapacity := rfl
  maxHeaderListSize := rfl
  got := rfl
  unmarked _ h := absurd h List.not_mem_nil

variable {M : ℤ} {x : HpackExchange}

theorem InStep.setCapacity (h : x.InStep M) {value : ℤ} (h0 : 0 ≤ value) (hM : value ≤ M)
    (hsmall : value < 2 ^ 25 + 31) : (x.step (.setCapacity value)).InStep M := by
  unfold step HpackEncoder.setCapacity
  dsimp only
  split
  · exact h
  · obtain ⟨hsound, hcap, hentries⟩ := h.encoder.resize h0 (by omega)
    exact
      { h with
        entries := by
          rw [hentries]
          exact (prefix_fit ..).trans h.entries
        encoder := hsound
        pending := fun _ => hcap.symm
        capacity := fun hneg => absurd hneg (by simp only; omega)
        readable := by rw [hcap]; exact hsmall
        encoder_le := by rw [hcap]; exact hM }

/-- How a block begins: the decoder is told of the capacity, and its table follows from there. -/
theorem InStep.begin (h : x.InStep M) :
    ∃ (rs : List HpackRepresentation) (p : Pass), x.encoder.begin.out = rs.flatMap HpackRepresentation.wire ∧
      x.encoder.begin.table = x.encoder.table ∧ x.encoder.begin.pendingCapacity < 0 ∧
      (∀ r ∈ rs, r.Readable) ∧
      rs.foldlM x.decoder.apply { table := x.decoder.table } = .ok p ∧
      Follows x.encoder.table p.table ∧ p.table.capacity ≤ M ∧ p.truncated = false ∧ p.out = [] ∧
      ∀ e ∈ p.table.entries, e ∈ x.decoder.table.entries := by
  have hM := h.encoder_le
  unfold HpackEncoder.begin
  dsimp only
  split
  · rename_i hpending
    have hcap := h.pending hpending
    have hsmall := h.readable
    have hsize := h.encoder.size_eq
    have hle := h.encoder.size_le
    obtain ⟨hsound, hcapacity, hentries⟩ := h.decoder.resize hpending (by omega)
    have htoNat : ((x.encoder.pendingCapacity.toNat : ℕ) : ℤ) = x.encoder.pendingCapacity :=
      Int.toNat_of_nonneg hpending
    refine ⟨[.sizeUpdate x.encoder.pendingCapacity.toNat],
      { table := x.decoder.table.resize x.encoder.pendingCapacity }, ?_, rfl, by norm_num,
      fun r hr => ?_, ?_, ⟨?_, h.encoder, hsound, by rw [hcapacity, hcap], fun e he => ?_⟩,
      by rw [hcapacity, hcap]; exact hM, rfl, rfl, fun e he => ?_⟩
    · rw [List.flatMap_singleton]
      exact List.nil_append _
    · rw [List.mem_singleton.1 hr]
      change Readable _ 5
      unfold Readable
      omega
    · have hmax := h.maxTableCapacity
      rw [List.foldlM_cons, HpackDecoder.apply, if_pos rfl, HpackDecoder.update,
        if_neg (by omega), htoNat]
      rfl
    · rw [hentries]
      have hfit : x.encoder.table.entries =
          fit HpackHeader.cost x.encoder.pendingCapacity.toNat x.encoder.table.entries :=
        (fit_eq_self (by omega)).symm
      rw [hfit]
      exact fit_mono h.entries (le_refl _)
    · rw [hentries] at he
      exact (h.unmarked e ((prefix_fit ..).subset he)).1
    · rw [hentries] at he
      exact (prefix_fit ..).subset he
  · rename_i hnone
    exact ⟨[], { table := x.decoder.table }, rfl, rfl, not_le.1 hnone,
      by simp, rfl,
      ⟨h.entries, h.encoder, h.decoder, h.capacity (not_le.1 hnone), fun e he => (h.unmarked e he).1⟩,
      h.decoder_le, rfl, rfl, fun e he => he⟩

theorem InStep.block (h : x.InStep M) {ws : List HpackWrite} (hws : ∀ w ∈ ws, Sendable M w.header) :
    (x.step (.block ws)).InStep M := by
  obtain ⟨rs, p, hout, htable, hpending, hrs, hp, hfollows, hM, htrunc, hempty, hmem⟩ := h.begin
  have hsend : ∀ f ∈ ws.map HpackWrite.header, Sendable M f := by
    intro f hf
    obtain ⟨w, hw, rfl⟩ := List.mem_map.1 hf
    exact hws w hw
  obtain ⟨hread, q, hq, hfollows', hcapE, hcapD, hfields, hheld⟩ :=
    hfollows.applyAll x.decoder h.maxHeaderListSize (ws.map HpackWrite.header) hsend hM h.readable htrunc
  have hencoder : ws.foldl HpackWrite.run x.encoder.begin =
      { x.encoder.begin.writeBytes ((representAll x.encoder.table (ws.map HpackWrite.header)).flatMap
          HpackRepresentation.wire) with
        table := (ws.map HpackWrite.header).foldl (fun E h => HpackEncoder.after E E h)
          x.encoder.table } := by
    rw [HpackWrite.foldl_run, foldl_add_eq, htable]
  have hdecode : x.decoder.decode (ws.foldl HpackWrite.run x.encoder.begin).out =
      .ok (x.decoder.finish q) := by
    rw [hencoder]
    change x.decoder.decode (x.encoder.begin.out ++ _) = _
    rw [hout, ← List.flatMap_append, decode_wire, List.foldlM_append, hp]
    · exact congrArg (Except.map x.decoder.finish) hq
    · intro r hr
      rcases List.mem_append.1 hr with hr | hr
      · exact hrs r hr
      · exact hread r hr
  unfold step
  dsimp only
  rw [hdecode, hencoder]
  dsimp only [finish]
  exact
    { entries := hfollows'.entries
      encoder := hfollows'.encoder
      decoder := hfollows'.decoder
      pending := fun h0 => absurd hpending (not_lt.2 h0)
      capacity := fun _ => hfollows'.capacity
      readable := by rw [hcapE]; exact h.readable
      encoder_le := by rw [hcapE]; exact h.encoder_le
      decoder_le := by rw [hcapD]; exact hM
      maxTableCapacity := h.maxTableCapacity
      maxHeaderListSize := h.maxHeaderListSize
      got := by
        rw [h.got, hfields, hempty, List.map_append]
        rfl
      unmarked := fun e he => by
        refine ⟨hfollows'.unmarked e he, ?_⟩
        rw [List.flatten_append, List.flatten_singleton, List.mem_append]
        rcases hheld e he with hin | hin
        · exact .inr hin
        · exact .inl (h.unmarked e (hmem e hin)).2 }

theorem InStep.step (h : x.InStep M) {c : Call} (hc : x.Meets M c) : (x.step c).InStep M := by
  cases c with
  | setCapacity value => exact h.setCapacity hc.1 hc.2.1 hc.2.2
  | block ws => exact h.block hc

/-! ## The limit of header lists -/

/-- What of a pass the next turn depends on. -/
def core (p : Pass) : HpackDynamicTable × Bool := (p.table, p.updatesStillAllowed)

theorem core_keep (p : Pass) (limit : ℤ) (field : HpackHeader) :
    core (p.keep limit field) = (p.table, false) := by
  unfold Pass.keep
  dsimp only
  split
  · rfl
  · split <;> rfl

variable {d d' : HpackDecoder} {p' : Pass}

/-- Two passes that differ in what they keep of the fields. -/
theorem turnAt_core (hd : d.maxTableCapacity = d'.maxTableCapacity) (hp : core p = core p')
    (first : Byte) (bytes : List Byte) :
    ((d.turnAt p first).run bytes).map (fun r => (core r.1, r.2)) =
      ((d'.turnAt p' first).run bytes).map fun r => (core r.1, r.2) := by
  obtain ⟨htable, hallowed⟩ := Prod.ext_iff.1 hp
  change p.table = p'.table at htable
  change p.updatesStillAllowed = p'.updatesStillAllowed at hallowed
  unfold turnAt
  split
  · rw [Parse.run_bind, Parse.run_bind]
    cases (readInteger 7).run bytes with
    | error e => rfl
    | ok r =>
      dsimp only
      rw [htable]
      cases resolve p'.table r.1 with
      | error e => rfl
      | ok f =>
        change Except.ok (core (p.keep _ f), _) = Except.ok (core (p'.keep _ f), _)
        rw [core_keep, core_keep, htable]
  · split
    · rw [Parse.run_bind, Parse.run_bind, htable]
      cases (readLiteral p'.table 6 false).run bytes with
      | error e => rfl
      | ok r =>
        change Except.ok (core (Pass.keep _ _ r.1), _) = Except.ok (core (Pass.keep _ _ r.1), _)
        rw [core_keep, core_keep]
    · split
      · rw [hallowed]
        split
        · rw [Parse.run_bind, Parse.run_bind]
          cases (readInteger 5).run bytes with
          | error e => rfl
          | ok r =>
            change Except.map _ (Except.map _ (d.update p r.1)) =
              Except.map _ (Except.map _ (d'.update p' r.1))
            unfold HpackDecoder.update
            rw [hd]
            split
            · rfl
            · simp only [Except.map, core, htable, hallowed]
        · rfl
      · rw [Parse.run_bind, Parse.run_bind, htable]
        cases (readLiteral p'.table 4 _).run bytes with
        | error e => rfl
        | ok r =>
          change Except.ok (core (Pass.keep _ _ r.1), _) = Except.ok (core (Pass.keep _ _ r.1), _)
          rw [core_keep, core_keep, htable]

theorem map_eq_map {ε α β γ : Type} {f : α → γ} {g : β → γ} {a : Except ε α} {b : Except ε β}
    (h : a.map f = b.map g) : (∃ e, a = .error e ∧ b = .error e) ∨
      ∃ r r', a = .ok r ∧ b = .ok r' ∧ f r = g r' := by
  cases a <;> cases b <;> simp_all [Except.map]

theorem decodeLoop_core (hd : d.maxTableCapacity = d'.maxTableCapacity) (fuel : ℕ)
    (hp : core p = core p') (bytes : List Byte) :
    (d.decodeLoop fuel p bytes).map core = (d'.decodeLoop fuel p' bytes).map core := by
  induction fuel generalizing p p' bytes with
  | zero => exact congrArg Except.ok hp
  | succ fuel ih =>
    cases bytes with
    | nil => exact congrArg Except.ok hp
    | cons b bytes =>
      have hturn := turnAt_core hd hp b (b :: bytes)
      change ((d.turn p).run (b :: bytes)).map _ = ((d'.turn p').run (b :: bytes)).map _ at hturn
      rw [decodeLoop, decodeLoop]
      · rcases map_eq_map hturn with ⟨e, hr, hr'⟩ | ⟨r, r', hr, hr', hpair⟩
        · rw [hr, hr']
        · obtain ⟨hcore, hrest⟩ := Prod.mk.inj hpair
          rw [hr, hr']
          dsimp only
          rw [hrest]
          exact ih hcore r'.2
      · exact List.cons_ne_nil b bytes
      · exact List.cons_ne_nil b bytes

/-- Two exchanges that differ in the limit of header lists. -/
def SameTables (x y : HpackExchange) : Prop :=
  x.encoder = y.encoder ∧ x.decoder.table = y.decoder.table ∧
    x.decoder.maxTableCapacity = y.decoder.maxTableCapacity

theorem SameTables.step {y : HpackExchange} (h : SameTables x y) (c : Call) :
    SameTables (x.step c) (y.step c) := by
  obtain ⟨hencoder, htable, hmax⟩ := h
  cases c with
  | setCapacity value =>
    refine ⟨?_, htable, hmax⟩
    change x.encoder.setCapacity value = y.encoder.setCapacity value
    rw [hencoder]
  | block ws =>
    have hloop := decodeLoop_core hmax (ws.foldl HpackWrite.run y.encoder.begin).out.length
      (show core { table := x.decoder.table } = core { table := y.decoder.table } by rw [htable])
      (ws.foldl HpackWrite.run y.encoder.begin).out
    unfold HpackExchange.step decode
    dsimp only
    rw [hencoder]
    rcases map_eq_map hloop with ⟨e, hr, hr'⟩ | ⟨p, p', hr, hr', hcore⟩
    · rw [hr, hr']
      exact ⟨rfl, htable, hmax⟩
    · rw [hr, hr']
      exact ⟨rfl, congrArg Prod.fst hcore, hmax⟩

/-! ## The result -/

/-- A table's accounting is that of its entries. -/
def Accounted (t : HpackDynamicTable) : Prop :=
  t.size = (t.entries.map fun e => (e.cost : ℤ)).sum ∧ t.size ≤ t.capacity

theorem accounted_of_sound {t : HpackDynamicTable} (h : t.Sound) : Accounted t := by
  refine ⟨?_, h.size_le⟩
  rw [h.size_eq, total]
  push_cast [List.map_map]
  rfl

/-- Encoder and decoder stay in step. -/
theorem in_step {capacity M : ℤ} (h0 : 0 ≤ capacity) (hle : capacity ≤ M) (hM : M < 2 ^ 31)
    (hsmall : capacity < 2 ^ 25 + 31) (l : List Call)
    (hl : Along step (Meets M) (new capacity M (2 ^ 31 - 1)) l) :
    let x := run step (new capacity M (2 ^ 31 - 1)) l
    x.got = x.sent.map .ok ∧
      x.encoder.table.entries <+: x.decoder.table.entries ∧
      Accounted x.encoder.table ∧ Accounted x.decoder.table ∧
      (∀ e ∈ x.encoder.table.entries ++ x.decoder.table.entries,
        e.sensitive = false ∧ e ∈ x.sent.flatten) ∧
      ∀ limit, (run step (new capacity M limit) l).decoder.table = x.decoder.table := by
  have h := run_invariant_along (P := InStep M) (inStep_new h0 hle hM hsmall)
    (fun _ _ hs hc => hs.step hc) hl
  refine ⟨h.got, h.entries, accounted_of_sound h.encoder, accounted_of_sound h.decoder,
    fun e he => ?_, fun limit => ?_⟩
  · rcases List.mem_append.1 he with he | he
    · exact h.unmarked e (h.entries.subset he)
    · exact h.unmarked e he
  · have hsame := run_simulation (R := SameTables) (s := new capacity M (2 ^ 31 - 1))
      (t := new capacity M limit) ⟨rfl, rfl, rfl⟩ (fun _ _ c hR _ => hR.step c) hl
    exact hsame.2.1.symm

/-- Two blocks with a smaller capacity between them, the second of fields that are in a table, or
marked. -/
def twoBlocks : List Call :=
  [.block [.add { name := ":status", value := "200" }, .field "x-trace" "a1" false],
    .setCapacity 64, .block [.field "x-trace" "a1" false, .field "cookie" "é" true]]

theorem in_step_two_blocks :
    (run step (new 4096 4096 (2 ^ 31 - 1)) twoBlocks).got =
      (run step (new 4096 4096 (2 ^ 31 - 1)) twoBlocks).sent.map .ok :=
  (in_step (by decide) (by decide) (by decide) (by decide) twoBlocks (by decide +kernel)).1

/-- A capacity of `2 ^ 25 + 31`, which the decoder allows, goes as an integer it refuses. -/
theorem large_capacity_is_refused :
    let l : List Call := [.setCapacity (2 ^ 25 + 31), .block []]
    let x := run step (new 4096 (2 ^ 25 + 31) (2 ^ 31 - 1)) l
    x.sent = [[]] ∧ x.got = [.error ⟨"Prefix-coded integer does not fit in 32 bits"⟩] := by
  refine ⟨rfl, ?_⟩
  rfl

end HpackExchange

end CrossByte
