import CrossByte.Lib.FittingPrefix
import CrossByte.Lib.Utf8
import CrossByte.Lib.WrappingInt

/-!
# The tables of HPACK

`HpackHeader`, `HpackStaticTable` and `HpackDynamicTable` of `crossbyte._internal.http.h2.hpack`.
The dynamic table lets go of its oldest entries in two loops that count in 32-bit `Int`s.
`Sound.add` and `Sound.resize` say what is left: the longest run of newest entries that fits, and
`size` still the sum of their sizes.
-/

namespace CrossByte

open Bytes (Byte)
open FittingPrefix
open WrappingInt (wrap wrap_eq)

/-- `Bytes.ofString`. -/
def ofString (text : String) : List Byte := Utf8.encode text.toList

structure HpackHeader where
  name : String
  value : String
  sensitive : Bool := false
  deriving DecidableEq

namespace HpackHeader

def octets (text : String) : ℕ :=
  if text.toList.any (fun c => decide (0x80 ≤ c.val.toNat)) then (ofString text).length
  else text.length

/-- `get_tableSize`. -/
def tableSize (h : HpackHeader) : ℤ := wrap (octets h.name + octets h.value + 32)

/-- The size of an entry by RFC 7541 4.1. -/
def cost (h : HpackHeader) : ℕ := (ofString h.name).length + (ofString h.value).length + 32

theorem encode_length_of_ascii {s : List Char} (h : ∀ c ∈ s, c.val.toNat < 0x80) :
    (Utf8.encode s).length = s.length := by
  induction s with
  | nil => rfl
  | cons c s ih =>
    have hc : (Utf8.encodeChar c).length = 1 := by
      have hlt := h c List.mem_cons_self
      unfold Utf8.encodeChar String.utf8EncodeChar
      rw [if_pos (by omega)]
      rfl
    rw [Utf8.encode_cons, List.length_append, hc, ih fun d hd => h d (List.mem_cons_of_mem c hd),
      List.length_cons, Nat.add_comm]

/-- `__octets` is the number of bytes, made or not. -/
theorem octets_eq (text : String) : octets text = (ofString text).length := by
  unfold octets
  split
  · rfl
  · rename_i hascii
    rw [ofString, encode_length_of_ascii, String.length_toList]
    intro c hc
    by_contra hlarge
    exact hascii (List.any_eq_true.2 ⟨c, hc, by simpa using hlarge⟩)

theorem tableSize_eq {h : HpackHeader} (hlt : h.cost < 2 ^ 31) : h.tableSize = h.cost := by
  unfold tableSize cost at *
  rw [octets_eq, octets_eq, wrap_eq (by omega) (by omega)]
  rfl

end HpackHeader

/-! ## The static table -/

variable {i : ℕ} {name value : String}

namespace HpackStaticTable

def names : List String :=
  [":authority", ":method", ":method", ":path", ":path", ":scheme", ":scheme", ":status",
   ":status", ":status", ":status", ":status", ":status", ":status", "accept-charset",
   "accept-encoding", "accept-language", "accept-ranges", "accept", "access-control-allow-origin",
   "age", "allow", "authorization", "cache-control", "content-disposition", "content-encoding",
   "content-language", "content-length", "content-location", "content-range", "content-type",
   "cookie", "date", "etag", "expect", "expires", "from", "host", "if-match", "if-modified-since",
   "if-none-match", "if-range", "if-unmodified-since", "last-modified", "link", "location",
   "max-forwards", "proxy-authenticate", "proxy-authorization", "range", "referer", "refresh",
   "retry-after", "server", "set-cookie", "strict-transport-security", "transfer-encoding",
   "user-agent", "vary", "via", "www-authenticate"]

def values : List String :=
  ["", "GET", "POST", "/", "/index.html", "http", "https", "200", "204", "206", "304", "400",
   "404", "500", "", "gzip, deflate", "", "", "", "", "", "", "", "", "", "", "", "", "", "", "",
   "", "", "", "", "", "", "", "", "", "", "", "", "", "", "", "", "", "", "", "", "", "", "", "",
   "", "", "", "", "", ""]

def length : ℕ := 61

def fields : List HpackHeader := List.zipWith (fun name value => { name, value }) names values

/-- `findPair`: the map made of the pairs holds the last index of each. -/
def findPair (name value : String) : Option ℕ :=
  ((fields.zipIdx.filter fun f => f.1.name = name ∧ f.1.value = value).getLast?).map (·.2 + 1)

/-- `findName`: the map made of the names holds the first index of each. -/
def findName (name : String) : Option ℕ :=
  (fields.zipIdx.find? fun f => f.1.name = name).map (·.2 + 1)

theorem length_fields : fields.length = length := by decide +kernel

/-- An entry has no mark. -/
theorem sensitive_eq {f : HpackHeader} (hf : f ∈ fields) : f.sensitive = false := by
  rw [fields, List.mem_iff_getElem] at hf
  obtain ⟨i, hi, rfl⟩ := hf
  rw [List.getElem_zipWith]

theorem findPair_spec (h : findPair name value = some i) :
    0 < i ∧ i ≤ length ∧ fields[i - 1]? = some { name, value } := by
  obtain ⟨⟨f, k⟩, hf, rfl⟩ := Option.map_eq_some_iff.1 h
  have hmem := List.mem_of_getLast? hf
  rw [List.mem_filter, decide_eq_true_eq] at hmem
  obtain ⟨hmem, rfl, rfl⟩ := hmem
  have hget := List.mem_zipIdx_iff_getElem?.1 hmem
  have hlt : k < fields.length := (List.getElem?_eq_some_iff.1 hget).1
  have hmark := sensitive_eq (List.mem_of_getElem? hget)
  refine ⟨Nat.succ_pos k, length_fields ▸ hlt, ?_⟩
  cases f
  simp_all

theorem findName_spec (h : findName name = some i) :
    0 < i ∧ i ≤ length ∧ ∃ f, fields[i - 1]? = some f ∧ f.name = name := by
  obtain ⟨⟨f, k⟩, hf, rfl⟩ := Option.map_eq_some_iff.1 h
  have hname : f.name = name := by simpa using List.find?_some hf
  have hget := List.mem_zipIdx_iff_getElem?.1 (List.mem_of_find?_eq_some hf)
  have hlt : k < fields.length := (List.getElem?_eq_some_iff.1 hget).1
  exact ⟨Nat.succ_pos k, length_fields ▸ hlt, f, by exact hget, hname⟩

end HpackStaticTable

/-! ## The dynamic table -/

/-- `HpackDynamicTable`: the newest entry first. -/
structure HpackDynamicTable where
  capacity : ℤ
  size : ℤ := 0
  entries : List HpackHeader := []
  deriving DecidableEq

namespace HpackDynamicTable

def clear (t : HpackDynamicTable) : HpackDynamicTable := { t with entries := [], size := 0 }

def evictOldest (t : HpackDynamicTable) : HpackDynamicTable :=
  match t.entries.getLast? with
  | none => { t with size := 0 }
  | some removed =>
    { t with entries := t.entries.dropLast, size := wrap (t.size - removed.tableSize) }

/-- The loops of `add` and `resize`: the oldest entry goes while `size` is `tooBig`.  A
table without entries has size zero, so they end. -/
def evictWhile (tooBig : ℤ → Bool) : ℕ → HpackDynamicTable → HpackDynamicTable
  | 0, t => t
  | fuel + 1, t => if tooBig t.size then evictWhile tooBig fuel t.evictOldest else t

def add (t : HpackDynamicTable) (header : HpackHeader) : HpackDynamicTable :=
  let entrySize := header.tableSize
  if entrySize > t.capacity then t.clear
  else
    let t := evictWhile (fun size => wrap (size + entrySize) > t.capacity) (t.entries.length + 1) t
    { t with entries := header :: t.entries, size := wrap (t.size + entrySize) }

def resize (t : HpackDynamicTable) (newCapacity : ℤ) : HpackDynamicTable :=
  let capacity := if newCapacity < 0 then 0 else newCapacity
  evictWhile (fun size => size > capacity) (t.entries.length + 1) { t with capacity }

def findPair (t : HpackDynamicTable) (name value : String) : Option ℕ :=
  t.entries.findIdx? fun entry => entry.name = name ∧ entry.value = value

def findName (t : HpackDynamicTable) (name : String) : Option ℕ :=
  t.entries.findIdx? fun entry => entry.name = name

variable {t : HpackDynamicTable} {header : HpackHeader}

theorem findPair_spec (h : t.findPair name value = some i) :
    ∃ e, t.entries[i]? = some e ∧ e.name = name ∧ e.value = value := by
  rw [findPair, List.findIdx?_eq_some_iff_getElem] at h
  obtain ⟨hi, he, -⟩ := h
  exact ⟨t.entries[i], List.getElem?_eq_getElem hi, by simpa using he⟩

theorem findName_spec (h : t.findName name = some i) :
    ∃ e, t.entries[i]? = some e ∧ e.name = name := by
  rw [findName, List.findIdx?_eq_some_iff_getElem] at h
  obtain ⟨hi, he, -⟩ := h
  exact ⟨t.entries[i], List.getElem?_eq_getElem hi, by simpa using he⟩

/-- The accounting is right. -/
structure Sound (t : HpackDynamicTable) : Prop where
  size_eq : t.size = total HpackHeader.cost t.entries
  size_le : t.size ≤ t.capacity
  capacity_lt : t.capacity < 2 ^ 31

theorem Sound.capacity_nonneg (h : t.Sound) : 0 ≤ t.capacity := by
  have h1 := h.size_eq
  have h2 := h.size_le
  omega

theorem sound_new {capacity : ℤ} (h0 : 0 ≤ capacity) (h : capacity < 2 ^ 31) :
    ({ capacity } : HpackDynamicTable).Sound := ⟨rfl, h0, h⟩

/-- What is left when `tooBig` is more than `room`. -/
theorem evictWhile_spec (tooBig : ℤ → Bool) (room : ℕ) {fuel : ℕ} (hfuel : t.entries.length ≤ fuel)
    (hsize : t.size = total HpackHeader.cost t.entries)
    (hlt : total HpackHeader.cost t.entries < 2 ^ 31)
    (hover : ∀ n : ℕ, n ≤ total HpackHeader.cost t.entries → (tooBig n = true ↔ room < n)) :
    evictWhile tooBig fuel t =
      { t with
        entries := fit HpackHeader.cost room t.entries
        size := total HpackHeader.cost (fit HpackHeader.cost room t.entries) } := by
  induction fuel generalizing t with
  | zero =>
    have hnil : t.entries = [] := List.eq_nil_of_length_eq_zero (by omega)
    rw [hnil, fit_nil, ← hnil, ← hsize]
    rfl
  | succ fuel ih =>
    rw [evictWhile]
    split
    · rename_i hmore
      rw [hsize] at hmore
      have hroom := (hover _ (le_refl _)).1 hmore
      rcases List.eq_nil_or_concat t.entries with hnil | ⟨l, a, hl⟩
      · rw [hnil, total_nil] at hroom
        omega
      · have hlast : t.entries.getLast? = some a := by simp [hl]
        have htotal : total HpackHeader.cost t.entries =
            total HpackHeader.cost l + a.cost := by
          rw [hl, List.concat_eq_append, total_append, total_cons, total_nil, Nat.add_zero]
        have hevict : t.evictOldest =
            { t with entries := l, size := total HpackHeader.cost l } := by
          rw [evictOldest, hlast]
          dsimp only
          rw [HpackHeader.tableSize_eq (by omega), hsize, htotal, hl,
            wrap_eq (by omega) (by omega)]
          congr 1
          · omega
          · simp
        rw [hevict, ih (t := { t with entries := l, size := total HpackHeader.cost l })
          (by have := congrArg List.length hl; simp at this; simp only; omega) rfl
          (by simp only; omega) fun n hn => hover n (by simp only at hn; omega)]
        have hfit : fit HpackHeader.cost room t.entries = fit HpackHeader.cost room l := by
          rw [hl, List.concat_eq_append]
          refine fit_concat ?_
          rw [← List.concat_eq_append, ← hl]
          exact hroom
        rw [hfit]
    · rename_i hless
      rw [hsize] at hless
      have hle : total HpackHeader.cost t.entries ≤ room :=
        not_lt.1 fun hlt => hless ((hover _ (le_refl _)).2 hlt)
      rw [fit_eq_self hle, ← hsize]

/-- `add` keeps the newest entries that fit, the one added first. -/
theorem Sound.add (h : t.Sound) (header : HpackHeader) (hlt : t.capacity + header.cost < 2 ^ 31) :
    (t.add header).Sound ∧ (t.add header).capacity = t.capacity ∧
      (t.add header).entries = fit HpackHeader.cost t.capacity.toNat (header :: t.entries) := by
  have h0 := h.capacity_nonneg
  have hsize := h.size_eq
  have hle := h.size_le
  have htotal : total HpackHeader.cost t.entries < 2 ^ 31 := by omega
  have hcost : header.tableSize = header.cost := HpackHeader.tableSize_eq (by omega)
  unfold HpackDynamicTable.add
  rw [hcost]
  dsimp only
  split
  · rw [fit_cons_of_lt (by omega)]
    exact ⟨⟨rfl, h0, h.capacity_lt⟩, rfl, rfl⟩
  · have hspec := evictWhile_spec (t := t)
      (fun size => decide (wrap (size + header.cost) > t.capacity))
      (t.capacity.toNat - header.cost) (Nat.le_succ _) hsize htotal fun n hn => by
        rw [decide_eq_true_eq, wrap_eq (by omega) (by omega)]
        omega
    have hroom := total_fit_le HpackHeader.cost (t.capacity.toNat - header.cost) t.entries
    rw [hspec, fit_cons_of_le (by omega)]
    refine ⟨⟨?_, ?_, h.capacity_lt⟩, rfl, rfl⟩
    · simp only [total_cons]
      rw [wrap_eq (by omega) (by omega)]
      omega
    · simp only
      rw [wrap_eq (by omega) (by omega)]
      omega

/-- `resize` keeps the newest entries that fit. -/
theorem Sound.resize (h : t.Sound) {c : ℤ} (h0 : 0 ≤ c) (hlt : c < 2 ^ 31) :
    (t.resize c).Sound ∧ (t.resize c).capacity = c ∧
      (t.resize c).entries = fit HpackHeader.cost c.toNat t.entries := by
  have hsize := h.size_eq
  have hle := h.size_le
  have htotal : total HpackHeader.cost t.entries < 2 ^ 31 := by have := h.capacity_lt; omega
  unfold HpackDynamicTable.resize
  rw [if_neg (by omega)]
  have hspec := evictWhile_spec (t := { t with capacity := c })
    (fun size => decide (size > c)) c.toNat (Nat.le_succ _) hsize htotal
    fun n hn => by
      rw [decide_eq_true_eq]
      omega
  have hroom := total_fit_le HpackHeader.cost c.toNat t.entries
  rw [hspec]
  exact ⟨⟨rfl, by simp only; omega, hlt⟩, rfl, rfl⟩

end HpackDynamicTable

end CrossByte
