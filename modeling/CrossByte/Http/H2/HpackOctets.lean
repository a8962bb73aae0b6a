import CrossByte.Http.H2.HpackInStep

/-!
# The HPACK decoder's table and its peer's

RFC 7541 has a table of octets, and an entry's size is 32 more than the octets of its name and
value.  The decoder's is a table of text: it reads octets as UTF-8 and measures an entry by the
UTF-8 of what it read.  The two sizes are the same for octets that are UTF-8, and for some that are
not; for the rest, each piece that is none is read as U+FFFD and measured as three octets.

`RfcTable` is the RFC's table, and a `HpackPeering` is a peer's encoder that keeps to it and the decoder
its blocks go to.

## Main results

* `table_follows_peer`: while every literal that enters the table has the length it is measured as,
  the decoder holds the RFC's entries, read as text.
* `odd_octets_evict_early`: two entries of ten octets `0xFF` fit the RFC's table and not the
  decoder's.
-/

namespace CrossByte

open Bytes (Byte)
open FittingPrefix Runs
open HpackDecoder

/-! ## The RFC's table -/

/-- An entry of the RFC's table. -/
structure RfcEntry where
  name : List Byte
  value : List Byte
  deriving DecidableEq

/-- RFC 7541 4.1. -/
def RfcEntry.size (e : RfcEntry) : ℕ := e.name.length + e.value.length + 32

/-- The RFC's table, the newest entry first. -/
structure RfcTable where
  capacity : ℕ
  entries : List RfcEntry := []
  deriving DecidableEq

namespace RfcTable

/-- RFC 7541 2.3.3: the entry of an index. -/
def entry? (t : RfcTable) (index : ℕ) : Option RfcEntry :=
  if index = 0 then none
  else if index ≤ HpackStaticTable.length then
    (HpackStaticTable.fields[index - 1]?).map fun f => ⟨ofString f.name, ofString f.value⟩
  else t.entries[index - HpackStaticTable.length - 1]?

/-- The octets of a literal field's name. -/
def name? (t : RfcTable) : HpackName → Option (List Byte)
  | .index i => (t.entry? i).map RfcEntry.name
  | .literal s => some s.octets

/-- RFC 7541 4.3 and 4.4: what a representation does to the table, if its indices are of entries. -/
def apply (t : RfcTable) : HpackRepresentation → Option RfcTable
  | .sizeUpdate capacity => some { capacity, entries := fit RfcEntry.size capacity t.entries }
  | .indexed index => (t.entry? index).map fun _ => t
  | .literal indexing name value => (t.name? name).map fun name =>
    match indexing with
    | .incremental =>
      { t with entries := fit RfcEntry.size t.capacity (⟨name, value.octets⟩ :: t.entries) }
    | .without | .never => t

end RfcTable

/-! ## The two sizes -/

/-- Octets that are measured as what they are. -/
def Measured (octets : List Byte) : Prop := (ofString (text octets)).length = octets.length

instance (octets : List Byte) : Decidable (Measured octets) := inferInstanceAs (Decidable (_ = _))

theorem measured_ofString (s : String) : Measured (ofString s) := by
  rw [Measured, text_ofString]

/-- An entry read as text. -/
def RfcEntry.decoded (e : RfcEntry) : HpackHeader := { name := text e.name, value := text e.value }

/-- An entry that is measured as what it is. -/
def RfcEntry.Measured (e : RfcEntry) : Prop := CrossByte.Measured e.name ∧ CrossByte.Measured e.value

variable {e : RfcEntry} {d : HpackDecoder} {p : Pass} {r : HpackRepresentation}
  {rs rs' : List HpackRepresentation}

theorem RfcEntry.Measured.cost_eq (h : e.Measured) : e.decoded.cost = e.size := by
  unfold HpackHeader.cost RfcEntry.size RfcEntry.decoded
  rw [h.1, h.2]

/-- The decoder's table is the RFC's, read as text. -/
structure ReadAs (t : RfcTable) (D : HpackDynamicTable) : Prop where
  sound : D.Sound
  capacity : D.capacity = t.capacity
  entries : D.entries = t.entries.map RfcEntry.decoded
  measured : ∀ e ∈ t.entries, e.Measured

variable {t t' : RfcTable} {D : HpackDynamicTable}

theorem ReadAs.resolve (h : ReadAs t D) {i : ℕ} (he : t.entry? i = some e) :
    resolve D i = .ok e.decoded ∧ e.Measured := by
  unfold RfcTable.entry? at he
  split at he
  · cases he
  · split at he
    · rename_i hstatic
      obtain ⟨f, hf, rfl⟩ := Option.map_eq_some_iff.1 he
      have hmark := HpackStaticTable.sensitive_eq (List.mem_of_getElem? hf)
      refine ⟨?_, measured_ofString _, measured_ofString _⟩
      rw [HpackEncoder.resolve_static (by omega) hstatic hf, RfcEntry.decoded]
      simp only [text_ofString]
      cases f
      simp_all
    · refine ⟨?_, h.measured e (List.mem_of_getElem? he)⟩
      have hget : D.entries[i - HpackStaticTable.length - 1]? = some e.decoded := by
        rw [h.entries, List.getElem?_map, he]
        rfl
      have hindex := HpackEncoder.resolve_dynamic hget
      rwa [show i - HpackStaticTable.length - 1 + HpackStaticTable.length + 1 = i by omega] at hindex

theorem ReadAs.resize (h : ReadAs t D) {c : ℕ} (hc : (c : ℤ) < 2 ^ 31) :
    ReadAs { capacity := c, entries := fit RfcEntry.size c t.entries } (D.resize c) := by
  obtain ⟨hsound, hcap, hentries⟩ := h.sound.resize (Int.natCast_nonneg c) hc
  refine ⟨hsound, hcap, ?_, fun e he => h.measured e ((prefix_fit ..).subset he)⟩
  rw [hentries, h.entries]
  exact fit_map fun e he => (h.measured e he).cost_eq

theorem ReadAs.add (h : ReadAs t D) (he : e.Measured) (hlt : (t.capacity : ℤ) + e.size < 2 ^ 31) :
    ReadAs { t with entries := fit RfcEntry.size t.capacity (e :: t.entries) } (D.add e.decoded) := by
  have hcost := he.cost_eq
  have hcap := h.capacity
  obtain ⟨hsound, hsame, hentries⟩ := h.sound.add e.decoded (by omega)
  have hmeasured : ∀ x ∈ e :: t.entries, x.Measured := by
    intro x hx
    rcases List.mem_cons.1 hx with rfl | hx
    · exact he
    · exact h.measured x hx
  refine ⟨hsound, hsame.trans hcap, ?_, fun x hx => hmeasured x ((prefix_fit ..).subset hx)⟩
  rw [hentries, h.entries, hcap]
  exact fit_map fun x hx => (hmeasured x hx).cost_eq

/-! ## One representation -/

/-- A name's octets, where they are a literal. -/
def HpackName.Measured : HpackName → Prop
  | .index _ => True
  | .literal s => CrossByte.Measured s.octets

instance : ∀ name : HpackName, Decidable name.Measured
  | .index _ => inferInstanceAs (Decidable True)
  | .literal s => inferInstanceAs (Decidable (CrossByte.Measured s.octets))

/-- A representation the decoder's table follows: it can be read, a capacity is one the decoder
allows, and an entry is measured as what it is and small enough to add to an `Int`. -/
def Followed (M : ℤ) (t : RfcTable) : HpackRepresentation → Prop
  | .sizeUpdate capacity => (capacity : ℤ) ≤ M
  | .literal .incremental name value => name.Measured ∧ Measured value.octets ∧
      ∀ n ∈ t.name? name, M + (RfcEntry.size ⟨n, value.octets⟩ : ℤ) < 2 ^ 31
  | _ => True

instance (M : ℤ) (t : RfcTable) : ∀ r, Decidable (Followed M t r)
  | .sizeUpdate _ => inferInstanceAs (Decidable (_ ≤ M))
  | .literal .incremental name _ => inferInstanceAs (Decidable (name.Measured ∧ _ ∧ _))
  | .literal .without .. | .literal .never .. | .indexed _ => inferInstanceAs (Decidable True)

theorem ReadAs.nameOf (h : ReadAs t D) {name : HpackName} {n : List Byte} (hn : t.name? name = some n) :
    nameOf D name = .ok (text n) ∧ (name.Measured → Measured n) := by
  cases name with
  | index i =>
    obtain ⟨e, he, rfl⟩ := Option.map_eq_some_iff.1 hn
    obtain ⟨hresolve, hmeasured⟩ := h.resolve he
    rw [HpackDecoder.nameOf, hresolve]
    exact ⟨rfl, fun _ => hmeasured.1⟩
  | literal s =>
    cases hn
    exact ⟨rfl, id⟩

theorem keep_table (p : Pass) (limit : ℤ) (field : HpackHeader) :
    (p.keep limit field).table = p.table :=
  congrArg Prod.fst (HpackExchange.core_keep p limit field)

/-- What a representation does to the RFC's table it does to the decoder's. -/
theorem ReadAs.apply {M : ℤ} (hM : M < 2 ^ 31) (hd : d.maxTableCapacity = M) (h : ReadAs t p.table)
    (hcap : (t.capacity : ℤ) ≤ M) (hr : t.apply r = some t') (hf : Followed M t r)
    (hallowed : (∃ c, r = .sizeUpdate c) → p.updatesStillAllowed = true) :
    ∃ q, d.apply p r = .ok q ∧ ReadAs t' q.table ∧ (t'.capacity : ℤ) ≤ M ∧
      ((∃ c, r = .sizeUpdate c) → q.updatesStillAllowed = true) := by
  cases r with
  | sizeUpdate capacity =>
    cases hr
    have hf : (capacity : ℤ) ≤ M := hf
    refine ⟨{ p with table := p.table.resize capacity }, ?_, h.resize (by omega), hf,
      fun hu => hallowed hu⟩
    rw [HpackDecoder.apply, if_pos (hallowed ⟨capacity, rfl⟩), HpackDecoder.update,
      if_neg (by omega)]
  | indexed index =>
    obtain ⟨e, he, rfl⟩ := Option.map_eq_some_iff.1 hr
    refine ⟨p.keep d.maxHeaderListSize e.decoded, ?_, by rw [keep_table]; exact h, hcap,
      by simp⟩
    rw [HpackDecoder.apply, (h.resolve he).1]
    rfl
  | literal x name value =>
    obtain ⟨n, hn, rfl⟩ := Option.map_eq_some_iff.1 hr
    obtain ⟨hname, hnamed⟩ := h.nameOf hn
    rw [HpackDecoder.apply, hname]
    cases x with
    | incremental =>
      obtain ⟨hmeasuredName, hmeasuredValue, hsize⟩ := hf
      have hlt := hsize n hn
      have hadd := h.add (e := ⟨n, value.octets⟩) ⟨hnamed hmeasuredName, hmeasuredValue⟩ (by omega)
      have hfield : ({
          name := text n
          value := text value.octets
          sensitive := decide (HpackIndexing.incremental = .never) } : HpackHeader) =
            RfcEntry.decoded ⟨n, value.octets⟩ := by simp [RfcEntry.decoded]
      refine ⟨_, rfl, ?_, hcap, by simp⟩
      rw [keep_table]
      dsimp only
      exact hadd
    | without | never =>
      exact ⟨_, rfl, by rw [keep_table]; exact h, hcap, by simp⟩

/-! ## Blocks -/

/-- A block of a peer: changes of the capacity, then fields. -/
structure HpackBlock where
  updates : List ℕ
  fields : List HpackRepresentation

def HpackBlock.representations (b : HpackBlock) : List HpackRepresentation :=
  b.updates.map HpackRepresentation.sizeUpdate ++ b.fields

def HpackRepresentation.isField : HpackRepresentation → Bool
  | .sizeUpdate _ => false
  | _ => true

/-- The RFC's table after some representations, if the indices of each are of entries. -/
def RfcTable.applyAll (t : RfcTable) (rs : List HpackRepresentation) : Option RfcTable :=
  rs.foldlM RfcTable.apply t

/-- A condition on each of some representations and the table it finds. -/
def Each (ok : RfcTable → HpackRepresentation → Prop) : RfcTable → List HpackRepresentation → Prop
  | _, [] => True
  | t, r :: rs => ok t r ∧ ∀ t₁ ∈ t.apply r, Each ok t₁ rs

instance decidableEach {ok : RfcTable → HpackRepresentation → Prop} [∀ t r, Decidable (ok t r)] :
    ∀ t rs, Decidable (Each ok t rs)
  | _, [] => isTrue trivial
  | t, r :: rs =>
    have (t₁ : RfcTable) : Decidable (Each ok t₁ rs) := decidableEach t₁ rs
    inferInstanceAs (Decidable (ok t r ∧ ∀ t₁ ∈ t.apply r, Each ok t₁ rs))

theorem applyAll_cons (h : t.applyAll (r :: rs) = some t') :
    ∃ t₁, t.apply r = some t₁ ∧ t₁.applyAll rs = some t' := by
  exact Option.bind_eq_some_iff.1 h

theorem applyAll_append (h : t.applyAll (rs ++ rs') = some t') :
    ∃ t₁, t.applyAll rs = some t₁ ∧ t₁.applyAll rs' = some t' := by
  rw [RfcTable.applyAll, List.foldlM_append] at h
  exact Option.bind_eq_some_iff.1 h

theorem ReadAs.updates {M : ℤ} (hM : M < 2 ^ 31) (hd : d.maxTableCapacity = M) {cs : List ℕ}
    (hcs : ∀ c ∈ cs, (c : ℤ) ≤ M) (hp : p.updatesStillAllowed = true) (h : ReadAs t p.table)
    (hcap : (t.capacity : ℤ) ≤ M)
    (ht : t.applyAll (cs.map HpackRepresentation.sizeUpdate) = some t') :
    ∃ q, (cs.map HpackRepresentation.sizeUpdate).foldlM d.apply p = .ok q ∧ ReadAs t' q.table ∧
      (t'.capacity : ℤ) ≤ M := by
  induction cs generalizing t p with
  | nil =>
    cases ht
    exact ⟨p, rfl, h, hcap⟩
  | cons c cs ih =>
    obtain ⟨t₁, hr, ht⟩ := applyAll_cons ht
    obtain ⟨q, hq, hread, hle, hallowed⟩ :=
      h.apply hM hd hcap hr (hcs c List.mem_cons_self) fun _ => hp
    obtain ⟨q', hq', hlast⟩ := ih (fun x hx => hcs x (List.mem_cons_of_mem c hx))
      (hallowed ⟨c, rfl⟩) hread hle ht
    refine ⟨q', ?_, hlast⟩
    rw [List.map_cons, List.foldlM_cons, hq]
    exact hq'

theorem ReadAs.fields {M : ℤ} (hM : M < 2 ^ 31) (hd : d.maxTableCapacity = M)
    (hfields : ∀ r ∈ rs, r.isField = true) (h : ReadAs t p.table) (hcap : (t.capacity : ℤ) ≤ M)
    (hrs : Each (Followed M) t rs) (ht : t.applyAll rs = some t') :
    ∃ q, rs.foldlM d.apply p = .ok q ∧ ReadAs t' q.table ∧ (t'.capacity : ℤ) ≤ M := by
  induction rs generalizing t p with
  | nil =>
    cases ht
    exact ⟨p, rfl, h, hcap⟩
  | cons r rs ih =>
    obtain ⟨t₁, hr, ht⟩ := applyAll_cons ht
    have hfield := hfields r List.mem_cons_self
    obtain ⟨q, hq, hread, hle, -⟩ := h.apply hM hd hcap hr hrs.1 fun ⟨c, hc⟩ => by
      rw [hc] at hfield
      cases hfield
    obtain ⟨q', hq', hlast⟩ :=
      ih (fun s hs => hfields s (List.mem_cons_of_mem r hs)) hread hle (hrs.2 t₁ hr) ht
    refine ⟨q', ?_, hlast⟩
    rw [List.foldlM_cons, hq]
    exact hq'

/-! ## Peerings -/

/-- A peer's table by the RFC, the decoder its blocks go to, and the error that ended it. -/
structure HpackPeering where
  table : RfcTable
  decoder : HpackDecoder
  error : Option HpackError := none

namespace HpackPeering

/-- Both tables start empty, of the capacity the decoder allows. -/
def new (maxTableCapacity : ℕ) (maxHeaderListSize : ℤ) : HpackPeering where
  table := { capacity := maxTableCapacity }
  decoder := .new maxTableCapacity maxHeaderListSize

/-- A block goes to the decoder. -/
def step (x : HpackPeering) (b : HpackBlock) : HpackPeering :=
  let table := (x.table.applyAll b.representations).getD x.table
  match x.decoder.decode (b.representations.flatMap HpackRepresentation.wire) with
  | .ok (decoder, _) => { x with table, decoder }
  | .error e => { x with table, error := some e }

/-- What an encoder may send: capacities the decoder allows, and then fields, with indices that are
of entries of the RFC's table. -/
def Legal (M : ℕ) (x : HpackPeering) (b : HpackBlock) : Prop :=
  (∀ c ∈ b.updates, c ≤ M) ∧ (∀ r ∈ b.fields, r.isField = true) ∧
    (x.table.applyAll b.representations).isSome = true

instance (M : ℕ) (x : HpackPeering) (b : HpackBlock) : Decidable (x.Legal M b) :=
  inferInstanceAs (Decidable (_ ∧ _ ∧ _))

/-- What the decoder's table follows: integers it reads, and entries of the sizes it measures. -/
def Follows (M : ℕ) (x : HpackPeering) (b : HpackBlock) : Prop :=
  (∀ r ∈ b.representations, r.Readable) ∧ Each (Followed M) x.table b.representations

instance (M : ℕ) (x : HpackPeering) (b : HpackBlock) : Decidable (x.Follows M b) :=
  inferInstanceAs (Decidable (_ ∧ _))

/-- The invariant of a peering. -/
structure InStep (M : ℕ) (x : HpackPeering) : Prop where
  reads : ReadAs x.table x.decoder.table
  capacity : x.table.capacity ≤ M
  maxTableCapacity : x.decoder.maxTableCapacity = M
  error : x.error = none

theorem each_append {ok : RfcTable → HpackRepresentation → Prop} {t t₁ : RfcTable}
    (h : Each ok t (rs ++ rs')) (ht : t.applyAll rs = some t₁) : Each ok t₁ rs' := by
  induction rs generalizing t with
  | nil =>
    cases ht
    exact h
  | cons r rs ih =>
    obtain ⟨t₂, hr, ht⟩ := applyAll_cons ht
    exact ih (h.2 t₂ hr) ht

variable {M : ℕ} {x : HpackPeering}

theorem InStep.step (h : x.InStep M) (hM : (M : ℤ) < 2 ^ 31) {b : HpackBlock} (hlegal : x.Legal M b)
    (hfollows : x.Follows M b) : (x.step b).InStep M := by
  obtain ⟨hupdates, hfields, hsome⟩ := hlegal
  obtain ⟨t', ht'⟩ := Option.isSome_iff_exists.1 hsome
  obtain ⟨t₁, ht₁, ht₂⟩ := applyAll_append ht'
  have hcap : ((x.table.capacity : ℕ) : ℤ) ≤ M := by exact_mod_cast h.capacity
  obtain ⟨p, hp, hread, hle⟩ := ReadAs.updates hM h.maxTableCapacity
    (fun c hc => by exact_mod_cast hupdates c hc) (p := { table := x.decoder.table }) rfl h.reads
    hcap ht₁
  obtain ⟨q, hq, hread', hle'⟩ := hread.fields hM h.maxTableCapacity hfields hle
    (each_append hfollows.2 ht₁) ht₂
  have hdecode : x.decoder.decode (b.representations.flatMap HpackRepresentation.wire) =
      .ok (x.decoder.finish q) := by
    rw [decode_wire hfollows.1, HpackBlock.representations, List.foldlM_append, hp]
    exact congrArg (Except.map x.decoder.finish) hq
  unfold HpackPeering.step
  rw [hdecode, ht']
  exact ⟨hread', by exact_mod_cast hle', h.maxTableCapacity, h.error⟩

/-- While entries are measured as what they are, the decoder holds the RFC's, read as text. -/
theorem table_follows_peer {M : ℕ} (hM : (M : ℤ) < 2 ^ 31) (limit : ℤ) (l : List HpackBlock)
    (hl : Along step (fun x b => x.Legal M b ∧ x.Follows M b) (new M limit) l) :
    let x := run step (new M limit) l
    x.error = none ∧ x.decoder.table.capacity = x.table.capacity ∧
      x.decoder.table.entries = x.table.entries.map RfcEntry.decoded := by
  have hnew : (new M limit).InStep M :=
    ⟨⟨HpackDynamicTable.sound_new (Int.natCast_nonneg M) hM, rfl, rfl,
      nofun⟩, le_refl M, rfl, rfl⟩
  have h := run_invariant_along (P := InStep M) hnew (fun _ _ hs hb => hs.step hM hb.1 hb.2) hl
  exact ⟨h.error, h.reads.capacity, h.reads.entries⟩

/-- Octets as they are. -/
def plain (octets : List Byte) : HpackLiteral := ⟨octets, false, octets, rfl⟩

/-- A block of two fields with one name, which is `a`. -/
def twoFields (value : List Byte) : HpackBlock where
  updates := []
  fields :=
    [.literal .incremental (.literal (plain [0x61])) (plain value),
      .literal .incremental (.index 62) (plain value)]

/-- Values that are UTF-8, or of which what is not has three octets. -/
theorem table_follows_peer_twoFields :
    (run step (new 100 (2 ^ 31 - 1)) [twoFields [0xC3, 0xA9], twoFields [0xF0, 0x9F, 0x98]]).error =
      none :=
  (table_follows_peer (by decide) (2 ^ 31 - 1) [twoFields [0xC3, 0xA9], twoFields [0xF0, 0x9F, 0x98]]
    (by decide +kernel)).1

/-- Ten octets `0xFF` are ten U+FFFD, measured as thirty octets: the second of two such entries
evicts the first, which the RFC keeps. -/
theorem odd_octets_evict_early :
    let b := twoFields (List.replicate 10 0xFF)
    let x := run step (new 100 (2 ^ 31 - 1)) [b]
    Along step (Legal 100) (new 100 (2 ^ 31 - 1)) [b] ∧ x.error = none ∧
      x.table.entries.map RfcEntry.size = [43, 43] ∧
      x.decoder.table.entries.map HpackHeader.cost = [63] := by
  refine ⟨by decide +kernel, by decide +kernel, by decide +kernel, by decide +kernel⟩

end HpackPeering

end CrossByte
