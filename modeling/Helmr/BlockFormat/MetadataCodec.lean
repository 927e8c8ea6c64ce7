import Helmr.BlockFormat.Metadata

/-!
# Block format — the metadata round trips

Every document the writer renders decodes to the value it was rendered from, provided the value
is portable: its numbers lie in the range of their Go types and its string keys are well-formed
UTF-8. Locators need no condition on the key because their descriptor is binary.

* `decodeDescriptor_descriptor` is the binary descriptor, read at the offsets of `descriptor_fields`;
* `spells_ref`, `spells_entry` and `spells_pointer` are the values inside a document, each one `Reads`
  derivation over its members;
* `decodeNode_renderNode`, `decodeRoot_renderRoot` and `decodeDirectory_renderDirectory` the documents.
-/

namespace Helmr.BlockFormat

open Wire Wire.Json Fallible

/-! ## Portable values -/

def Ref.Portable (r : Ref) : Prop :=
  Utf8 r.key ∧ r.count ≤ uint32Max ∧ intMin ≤ r.size ∧ r.size ≤ intMax

def Locator.Portable (l : Locator) : Prop :=
  l.Encodable ∧ l.page.count ≤ uint32Max ∧ l.pack.size ≤ intMax ∧ l.page.size ≤ intMax
    ∧ l.offset ≤ intMax

def IntRange (i : Int) : Prop := intMin ≤ i ∧ i ≤ intMax

structure Entry.Portable (e : Entry) : Prop where
  slot : IntRange e.slot
  child : ∀ l ∈ e.child, l.Portable
  segment : IntRange e.segment
  record : e.record ≤ uint32Max

structure Node.Portable (n : Node) : Prop where
  capacity : IntRange n.capacity
  fanout : IntRange n.fanout
  level : IntRange n.level
  start : n.start ≤ uint64Max
  segments : ∀ r ∈ n.segments, r.Portable
  entries : ∀ e ∈ n.entries, e.Portable

structure Root.Portable (r : Root) : Prop where
  capacity : IntRange r.capacity
  fanout : IntRange r.fanout
  level : IntRange r.level
  index : ∀ l ∈ r.index, l.Portable

structure PackDirectory.Portable (d : PackDirectory) : Prop where
  rank : IntRange d.rank
  pages : ∀ r ∈ d.pages, r.Portable

/-! ## Locators -/

theorem digestAt_eq {b : Bytes} {pos : Nat} {d : Digest} (h : slice b pos 32 = d.toList) :
    digestAt b pos = d := by
  ext i hi
  have hget := congrArg (fun l => l[i]?) h
  simp only [getElem?_slice hi] at hget
  have hd : d.toList[i]? = some d[i] := by simp [hi]
  rw [hd] at hget
  simp [digestAt, List.getD, hget]

theorem getD_eq_of_slice {b : Bytes} {pos : Nat} {c : UInt8} (h : slice b pos 1 = [c]) :
    b.getD pos 0 = c := by
  have hget := congrArg (fun l => l[0]?) h
  simp only [getElem?_slice (show 0 < 1 by omega), Nat.add_zero] at hget
  simp [List.getD, hget]

/-- The fields of a descriptor, one after another. -/
def Locator.parts (l : Locator) : List Bytes :=
  [l.pack.digest.toList, beBytes 8 l.pack.size.toNat, [UInt8.ofNat l.pack.rank.toNat],
    l.page.digest.toList, l.page.salt.toList, [l.page.kind], beBytes 4 l.page.count,
    beBytes 8 l.page.size.toNat, beBytes 8 l.offset.toNat, beBytes 2 l.page.key.length, l.page.key]

theorem Locator.descriptor_eq (l : Locator) : l.descriptor = l.parts.flatten := by
  simp [Locator.descriptor, Locator.parts]

theorem length_descriptor (l : Locator) : l.descriptor.length = 128 + l.page.key.length := by
  simp [Locator.descriptor_eq, Locator.parts]
  omega

section Descriptor

variable (l : Locator)

/-- Field `i` of a descriptor lies after the fields before it. -/
theorem slice_descriptor (i : Nat) {pos n : Nat} {part : Bytes} (hpart : l.parts[i]? = some part)
    (hpos : pos = (l.parts.take i).flatten.length) (hn : n = part.length) :
    slice l.descriptor pos n = part := by
  obtain ⟨hi, rfl⟩ := List.getElem?_eq_some_iff.mp hpart
  have hsplit : l.descriptor = (l.parts.take i).flatten ++ l.parts[i] ++ (l.parts.drop (i + 1)).flatten := by
    rw [l.descriptor_eq, List.append_assoc, ← List.flatten_cons, List.getElem_cons_drop,
      ← List.flatten_append, List.take_append_drop]
  exact slice_of_split _ hsplit hpos hn

/-- The fields of fixed width, where `UnmarshalJSON` reads them. -/
theorem descriptor_fields :
    slice l.descriptor 0 32 = l.pack.digest.toList ∧ slice l.descriptor 32 8 = beBytes 8 l.pack.size.toNat ∧
    slice l.descriptor 40 1 = [UInt8.ofNat l.pack.rank.toNat] ∧ slice l.descriptor 41 32 = l.page.digest.toList ∧
    slice l.descriptor 73 32 = l.page.salt.toList ∧ slice l.descriptor 105 1 = [l.page.kind] ∧
    slice l.descriptor 106 4 = beBytes 4 l.page.count ∧ slice l.descriptor 110 8 = beBytes 8 l.page.size.toNat ∧
    slice l.descriptor 118 8 = beBytes 8 l.offset.toNat ∧ slice l.descriptor 126 2 = beBytes 2 l.page.key.length := by
  refine ⟨slice_descriptor l 0 rfl ?_ ?_, slice_descriptor l 1 rfl ?_ ?_, slice_descriptor l 2 rfl ?_ ?_,
    slice_descriptor l 3 rfl ?_ ?_, slice_descriptor l 4 rfl ?_ ?_, slice_descriptor l 5 rfl ?_ ?_,
    slice_descriptor l 6 rfl ?_ ?_, slice_descriptor l 7 rfl ?_ ?_, slice_descriptor l 8 rfl ?_ ?_,
    slice_descriptor l 9 rfl ?_ ?_⟩ <;>
  simp [Locator.parts]

/-- The key id is the rest. -/
theorem descriptor_key : l.descriptor.drop 128 = l.page.key := by
  have hlen : (l.parts.take 10).flatten.length = 128 := by simp [Locator.parts]
  rw [l.descriptor_eq, ← List.take_append_drop 10 l.parts, List.flatten_append, ← hlen, List.drop_left]
  simp [Locator.parts]

end Descriptor

theorem beNat_beBytes_int (width : Nat) {i : Int} (h0 : 0 ≤ i) (h : i ≤ intMax)
    (hw : 8 ≤ width) : ((beNat (beBytes width i.toNat) : Nat) : Int) = i := by
  have hlt : i.toNat < 256 ^ width := by
    have h8 : (256 : Nat) ^ 8 ≤ 256 ^ width := Nat.pow_le_pow_right (by norm_num) hw
    unfold intMax at h
    norm_num at h8
    omega
  rw [beNat_beBytes hlt]
  omega

/-- **A descriptor decodes to its locator.** -/
theorem decodeDescriptor_descriptor {l : Locator} (h : l.Portable) :
    decodeDescriptor l.descriptor = some l := by
  obtain ⟨henc, hcount, hpack, hpage, hoff⟩ := h
  unfold Locator.Encodable at henc
  push Not at henc
  obtain ⟨hkey, hrank0, hrank, hpack0, hpage0, hoff0⟩ := henc
  have hkeylen : beNat (beBytes 2 l.page.key.length) = l.page.key.length :=
    beNat_beBytes (by norm_num; omega)
  have hsize := beNat_beBytes_int 8 hpack0 hpack le_rfl
  have hpsize := beNat_beBytes_int 8 hpage0 hpage le_rfl
  have hoffset := beNat_beBytes_int 8 hoff0 hoff le_rfl
  have hcnt : beNat (beBytes 4 l.page.count) = l.page.count :=
    beNat_beBytes (by unfold uint32Max at hcount; norm_num; omega)
  have hrk : (((UInt8.ofNat l.pack.rank.toNat).toNat : Nat) : Int) = l.pack.rank := by
    rw [UInt8.toNat_ofNat', Nat.mod_eq_of_lt (by omega)]
    omega
  obtain ⟨hdigest, hsize', hrank', hpage', hsalt, hkind, hcount', hpsize', hoffset', hkeylen'⟩ := descriptor_fields l
  have hbounds : ¬(l.descriptor.length < 128 ∨ l.descriptor.length > 256
      ∨ beNat (slice l.descriptor 126 2) ≠ l.descriptor.length - 128) := by
    rw [hkeylen', hkeylen, length_descriptor]
    omega
  unfold decodeDescriptor
  rw [if_neg hbounds]
  simp only [hsize', hpsize', hoffset', hsize, hpsize, hoffset]
  rw [if_neg (by omega)]
  simp only [hcount', hcnt, descriptor_key, digestAt_eq hdigest, digestAt_eq hpage', digestAt_eq hsalt,
    getD_eq_of_slice hrank', getD_eq_of_slice hkind, hrk]

theorem length_renderLocator (l : Locator) :
    (renderLocator l).length = 4 * ((130 + l.page.key.length) / 3) + 2 := by
  rw [renderLocator, renderString_plain (Base64.plain_encode _)]
  simp only [List.length_cons, List.length_append, List.length_nil, Base64.length_encode,
    length_descriptor]
  omega

theorem spells_locator {l : Locator} (h : l.Portable) :
    Spells decodeLocator (renderLocator l) (some l) := by
  refine ⟨starts_renderLiteral _, fun rest _ => ?_⟩
  have hkey : l.page.key.length ≤ 128 := by
    have henc := h.1
    unfold Locator.Encodable at henc
    push Not at henc
    exact henc.1
  have hparse := parseString_renderString
    (utf8_of_plain (Base64.plain_encode l.descriptor)) rest
  have hlen := length_renderLocator l
  have hloc : parseLocator (renderLocator l ++ rest) = some (l, rest) := by
    unfold parseLocator
    rw [show parseString (renderLocator l ++ rest) = some (Base64.encode l.descriptor, rest)
      from hparse]
    have hshort : ¬((renderLocator l ++ rest).length - rest.length > 346) := by
      rw [List.length_append]
      omega
    simp only [if_neg hshort, Base64.decode_encode, decodeDescriptor_descriptor h, Option.map_some]
  rw [renderLocator, renderString, List.cons_append] at hloc ⊢
  rw [decodeLocator, orNull_of_head (by decide), intoField, hloc]
  rfl

/-! ## Structs -/

theorem spells_ref {r : Ref} (h : r.Portable) : Spells (decodeRef Ref.zero) (renderRef r) r := by
  obtain ⟨hkey, hcount, hsize⟩ := h
  apply spells_object
  refine .field "Digest" (by decide) rfl rfl (spells_byteArray (v := r.digest)) ?_
  refine .field "Salt" (by decide) rfl rfl (spells_byteArray (v := r.salt)) ?_
  refine .field "Key" (by decide) rfl rfl (spells_string hkey) ?_
  refine .field "Kind" (by decide) rfl rfl (spells_byte (b := r.kind)) ?_
  refine .field "Count" (by decide) rfl rfl (spells_uint hcount) ?_
  refine .field "Size" (by decide) rfl rfl (spells_int hsize) ?_
  exact .nil r

/-- Members are optional: an absent one leaves the zero value it would have stored. -/
theorem spells_entry {e : Entry} (h : e.Portable) : Spells (decodeEntry Entry.zero) (renderEntry e) e := by
  apply spells_object
  simp only [entryMembers, List.map_append, List.append_assoc, List.map_cons, List.cons_append,
    List.nil_append]
  refine .field "Slot" (by decide) rfl rfl (spells_int h.slot) ?_
  refine Reads.append { Entry.zero with slot := e.slot, child := e.child } ?_ ?_
  · cases hc : e.child with
    | none => exact .nil _
    | some l =>
      refine .field "Child" (by decide) rfl rfl (spells_locator (h.child l (by simp [hc]))) ?_
      exact .nil _
  refine Reads.append
    { Entry.zero with slot := e.slot, child := e.child, segment := e.segment } ?_ ?_
  · split_ifs with hs
    · simpa [Entry.zero, hs] using Reads.nil _
    · refine .field "Segment" (by decide) rfl rfl (spells_int h.segment) ?_
      exact .nil _
  · split_ifs with hrec
    · cases e
      simp only at hrec
      subst hrec
      exact .nil _
    · refine .field "Record" (by decide) rfl rfl (spells_uint h.record) ?_
      exact .nil _

theorem starts_null : Starts (ascii "null") := ⟨110, _, rfl, by decide, by decide, by decide⟩

/-- The entries of a node: an array, or `null` when there are none. -/
theorem spells_entries {es : List Entry} (h : ∀ e ∈ es, e.Portable) :
    Spells (decodeSlice decodeEntry Entry.zero [])
      (if es = [] then ascii "null" else renderArray (es.map renderEntry)) es := by
  split_ifs with hnil
  · subst hnil
    exact ⟨starts_null, fun _ _ => rfl⟩
  · exact spells_slice fun e he => spells_entry (h e he)

theorem spells_pointer {p : Option Locator} (h : ∀ l ∈ p, l.Portable) :
    Spells decodeLocator (renderPointer p) p := by
  cases p with
  | none => exact ⟨starts_null, fun _ _ => rfl⟩
  | some l => exact spells_locator (h l rfl)

/-! ## Documents -/

/-- A rendered object with nothing after it is a whole document. -/
theorem decodeTree_renderObject {α : Type} {field : α → Bytes → Parser α} {zero a : α}
    {members : List (Bytes × Bytes)}
    (h : Reads (parseMember field) zero (members.map fun m => renderMember m.1 m.2) a) :
    decodeTree field zero (renderObject members) = .ok a := by
  have hskip := skipSpace_of_starts (starts_renderObject members) []
  have hparse := orNull_renderObject zero (parseObject field zero) members []
  rw [parseObject_renderObject h] at hparse
  rw [List.append_nil] at hskip hparse
  have hnil : skipSpace [] = [] := rfl
  simp [decodeTree, hskip, hparse, hnil]

theorem decodeNode_renderNode {n : Node} (h : n.Portable) : decodeNode (renderNode n) = .ok n := by
  apply decodeTree_renderObject
  simp only [nodeMembers, List.map_append, List.map_cons, List.map_nil, List.cons_append,
    List.nil_append]
  refine .field "Capacity" (by decide) rfl rfl (spells_int h.capacity) ?_
  refine .field "Fanout" (by decide) rfl rfl (spells_int h.fanout) ?_
  refine .field "Level" (by decide) rfl rfl (spells_int h.level) ?_
  refine .field "Start" (by decide) rfl rfl (spells_uint h.start) ?_
  refine Reads.append { n with entries := [] } ?_ ?_
  · split_ifs with hs
    · simpa [Node.zero, hs] using Reads.nil _
    · refine .field "Segments" (by decide) rfl rfl (spells_slice fun r hr => spells_ref (h.segments r hr)) ?_
      exact .nil _
  · refine .field "Entries" (by decide) rfl rfl (spells_entries h.entries) ?_
    exact .nil _

theorem decodeRoot_renderRoot {r : Root} (h : r.Portable) : decodeRoot (renderRoot r) = .ok r := by
  apply decodeTree_renderObject
  refine .field "Capacity" (by decide) rfl rfl (spells_int h.capacity) ?_
  refine .field "Fanout" (by decide) rfl rfl (spells_int h.fanout) ?_
  refine .field "Level" (by decide) rfl rfl (spells_int h.level) ?_
  refine .field "Index" (by decide) rfl rfl (spells_pointer h.index) ?_
  exact .nil _

theorem decodeDirectory_renderDirectory {d : PackDirectory} (h : d.Portable) :
    decodeDirectory (renderDirectory d) = .ok d := by
  apply decodeTree_renderObject
  refine .field "Rank" (by decide) rfl rfl (spells_int h.rank) ?_
  refine .field "Pages" (by decide) rfl rfl (spells_slice fun r hr => spells_ref (h.pages r hr)) ?_
  exact .nil _

end Helmr.BlockFormat
