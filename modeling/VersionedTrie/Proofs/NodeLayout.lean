import VersionedTrie.Node.Layout

/-! # What stored nodes are read from

Every reader accepts exactly one form of what it reads: reading gives a result and a rest exactly
where the input is the form of the result followed by the rest. For whole nodes this is
`decode_eq_ok`: a byte string decodes to a node exactly if it is the stored form of the node, and
the node has a child or is a leaf whose sizes fit their fields.
-/

set_option autoImplicit false

namespace VersionedTrie

namespace Layout

section Readers

variable {α β : Type} {b rest : ByteArray}

theorem pure_eq_ok {a a' : α} : (pure a : Reader α) b = .ok (a', rest) ↔ a = a' ∧ b = rest := by
  show Except.ok (a, b) = .ok (a', rest) ↔ _
  rw [Except.ok.injEq, Prod.mk.injEq]

theorem throw_ne_ok {d : LayoutDefect} {a : α} : (throw d : Reader α) b ≠ .ok (a, rest) := nofun

theorem bind_eq_ok {r : Reader α} {f : α → Reader β} {c : β} :
    (r >>= f) b = .ok (c, rest) ↔ ∃ a mid, r b = .ok (a, mid) ∧ f a mid = .ok (c, rest) := by
  show (r b >>= fun p => f p.1 p.2) = .ok (c, rest) ↔ _
  cases r b with
  | error d => simp [Bind.bind, Except.bind]
  | ok p =>
    obtain ⟨a, mid⟩ := p
    constructor
    · exact fun h => ⟨a, mid, rfl, h⟩
    · rintro ⟨a', mid', h, hf⟩
      cases h
      exact hf

theorem piece_eq_ok {n : Nat} {a : ByteArray} :
    piece n b = .ok (a, rest) ↔ a.size = n ∧ b = a ++ rest := by
  unfold piece
  constructor
  · intro h
    split at h
    · next hs =>
      cases h
      exact (Bytes.split?_eq_some hs).symm
    · cases h
  · rintro ⟨rfl, rfl⟩
    rw [Bytes.split?_append]

theorem number_eq_ok {width n : Nat} :
    number width b = .ok (n, rest) ↔
      n < Bytes.span width ∧ b = Bytes.littleBytes width n ++ rest := by
  simp only [number, bind_eq_ok, piece_eq_ok, pure_eq_ok]
  constructor
  · rintro ⟨a, mid, ⟨rfl, rfl⟩, rfl, rfl⟩
    rw [Bytes.littleBytes_ofLittleBytes]
    exact ⟨Bytes.ofLittleBytes_lt a, rfl⟩
  · rintro ⟨hn, rfl⟩
    exact ⟨_, rest, ⟨Bytes.size_littleBytes .., rfl⟩, Bytes.ofLittleBytes_littleBytes hn, rfl⟩

theorem digest_eq_ok {d : Digest} : digest b = .ok (d, rest) ↔ b = d.bytes ++ rest := by
  simp only [digest, bind_eq_ok, piece_eq_ok]
  constructor
  · rintro ⟨a, mid, ⟨_, rfl⟩, h⟩
    cases hd : Digest.ofBytes? a with
    | none =>
      rw [hd] at h
      exact absurd h throw_ne_ok
    | some d' =>
      rw [hd] at h
      obtain ⟨rfl, rfl⟩ := pure_eq_ok.mp h
      rw [Digest.ofBytes?_eq_some hd]
  · rintro rfl
    refine ⟨d.bytes, rest, ⟨d.size_bytes, rfl⟩, ?_⟩
    rw [Digest.ofBytes?_bytes]
    rfl

end Readers

/-! ## Slots -/

section Slots

variable {b rest : ByteArray}

theorem slot_eq_ok {s : Option Child} : slot b = .ok (s, rest) ↔ b = Node.slotBytes s ++ rest := by
  have h0 : Bytes.littleBytes 1 0 = [0].toByteArray := rfl
  have h1 : Bytes.littleBytes 1 1 = [1].toByteArray := rfl
  simp only [slot, bind_eq_ok, number_eq_ok]
  constructor
  · rintro ⟨present, mid, ⟨_, rfl⟩, h⟩
    split at h
    · next hp =>
      obtain ⟨rfl, rfl⟩ := pure_eq_ok.mp h
      rw [hp, h0, Node.slotBytes]
    · split at h
      · next hp =>
        simp only [bind_eq_ok, digest_eq_ok, number_eq_ok] at h
        obtain ⟨d, _, rfl, version, _, ⟨hv, rfl⟩, flag, _, ⟨_, rfl⟩, h⟩ := h
        split at h
        · next hf =>
          obtain ⟨rfl, rfl⟩ := pure_eq_ok.mp h
          have hversion : version.toUInt64.toNat = version := UInt64.toNat_ofNat_of_lt' hv
          have hflag : Bytes.littleBytes 1 flag = [if flag = 1 then 1 else 0].toByteArray := by
            obtain rfl | rfl := Nat.le_one_iff_eq_zero_or_eq_one.mp hf
            · rfl
            · rfl
          simp only [Node.slotBytes, hp, h1, hversion, hflag, ByteArray.append_assoc,
            decide_eq_true_eq]
        · exact absurd h throw_ne_ok
      · exact absurd h throw_ne_ok
  · rintro rfl
    cases s with
    | none => exact ⟨0, rest, ⟨by decide, rfl⟩, rfl⟩
    | some c =>
      have hflag : Bytes.littleBytes 1 (if c.leaf then 1 else 0) =
          [if c.leaf then 1 else 0].toByteArray := by
        cases c.leaf <;> rfl
      refine ⟨1, c.digest.bytes ++ (Bytes.littleBytes 8 c.version.toNat ++
        ([if c.leaf then 1 else 0].toByteArray ++ rest)), ⟨by decide, ?_⟩, ?_⟩
      · simp only [Node.slotBytes, h1, ByteArray.append_assoc]
      · rw [if_neg Nat.one_ne_zero, if_pos rfl]
        simp only [bind_eq_ok, digest_eq_ok, number_eq_ok]
        refine ⟨_, _, rfl, _, _, ⟨c.version.toNat_lt, rfl⟩, if c.leaf then 1 else 0, rest,
          ⟨?_, ?_⟩, ?_⟩
        · cases c.leaf <;> decide
        · rw [hflag]
        · obtain ⟨d, version, leaf⟩ := c
          cases leaf <;> simp [pure_eq_ok]

def slotsBytes (l : List (Option Child)) : ByteArray :=
  l.foldl (fun out s => out ++ Node.slotBytes s) ByteArray.empty

theorem slotsBytes_append (l : List (Option Child)) (s : Option Child) :
    slotsBytes (l ++ [s]) = slotsBytes l ++ Node.slotBytes s := by
  simp [slotsBytes]

theorem slots_eq_ok {n : Nat} {v : Vector (Option Child) n} :
    slots n b = .ok (v, rest) ↔ b = slotsBytes v.toList ++ rest := by
  induction n generalizing rest with
  | zero =>
    have hv : v = #v[] := Vector.eq_empty
    subst hv
    rw [slots, pure_eq_ok]
    simp [slotsBytes]
  | succ n ih =>
    rw [slots]
    simp only [bind_eq_ok, ih, slot_eq_ok, pure_eq_ok]
    constructor
    · rintro ⟨front, _, rfl, last, _, rfl, rfl, rfl⟩
      rw [Vector.toList_push, slotsBytes_append, ByteArray.append_assoc]
    · rintro rfl
      refine ⟨v.pop, _, ?_, v.back, rest, rfl, Vector.push_pop_back v, rfl⟩
      have hv : v.toList = v.pop.toList ++ [v.back] := by
        rw [← Vector.toList_push, Vector.push_pop_back]
      rw [hv, slotsBytes_append, ByteArray.append_assoc]

end Slots

/-! ## Nodes -/

def Fields.bytes : Fields → ByteArray
  | .branch b => Bytes.littleBytes 4 0 ++ slotsBytes b.slots.toList
  | .leaf key value d =>
    Bytes.littleBytes 4 1 ++ (Bytes.littleBytes 8 key.size ++ key ++
      Bytes.littleBytes 8 value.size ++ value ++ d.bytes)

/-- The sizes fit the fields that hold them. -/
def Fields.Fits : Fields → Prop
  | .branch _ => True
  | .leaf key value _ => key.size < Bytes.span 8 ∧ value.size < Bytes.span 8

theorem fields_eq_ok {b rest : ByteArray} {f : Fields} :
    fields b = .ok (f, rest) ↔ b = f.bytes ++ rest ∧ f.Fits := by
  simp only [fields, bind_eq_ok, number_eq_ok]
  constructor
  · rintro ⟨tag, mid, ⟨_, rfl⟩, h⟩
    split at h
    · next ht =>
      simp only [bind_eq_ok, slots_eq_ok, pure_eq_ok] at h
      obtain ⟨s, _, rfl, rfl, rfl⟩ := h
      rw [Fields.bytes, ht, ByteArray.append_assoc]
      exact ⟨rfl, trivial⟩
    · split at h
      · next ht =>
        simp only [bind_eq_ok, number_eq_ok, piece_eq_ok, digest_eq_ok, pure_eq_ok] at h
        obtain ⟨_, _, ⟨hk, rfl⟩, key, _, ⟨rfl, rfl⟩, _, _, ⟨hv, rfl⟩, value, _, ⟨rfl, rfl⟩,
          d, _, rfl, rfl, rfl⟩ := h
        simp only [Fields.bytes, ht, ByteArray.append_assoc]
        exact ⟨trivial, hk, hv⟩
      · exact absurd h throw_ne_ok
  · rintro ⟨rfl, hf⟩
    cases f with
    | branch br =>
      refine ⟨0, slotsBytes br.slots.toList ++ rest, ⟨by decide, ?_⟩, ?_⟩
      · rw [Fields.bytes, ByteArray.append_assoc]
      · rw [if_pos rfl]
        simp only [bind_eq_ok, slots_eq_ok, pure_eq_ok]
        exact ⟨_, _, rfl, rfl, rfl⟩
    | leaf key value d =>
      refine ⟨1, Bytes.littleBytes 8 key.size ++ (key ++ (Bytes.littleBytes 8 value.size ++
        (value ++ (d.bytes ++ rest)))), ⟨by decide, ?_⟩, ?_⟩
      · simp only [Fields.bytes, ByteArray.append_assoc]
      · rw [if_neg Nat.one_ne_zero, if_pos rfl]
        simp only [bind_eq_ok, number_eq_ok, piece_eq_ok, digest_eq_ok, pure_eq_ok]
        exact ⟨_, _, ⟨hf.1, rfl⟩, _, _, ⟨rfl, rfl⟩, _, _, ⟨hf.2, rfl⟩, _, _, ⟨rfl, rfl⟩,
          _, _, rfl, rfl, rfl⟩

theorem all_eq_ok {α : Type} {r : Reader α} {b : ByteArray} {a : α} :
    all r b = .ok a ↔ r b = .ok (a, ByteArray.empty) := by
  unfold all
  cases hr : r b with
  | error d => simp [Bind.bind, Except.bind]
  | ok p =>
    obtain ⟨a', rest⟩ := p
    simp only [Bind.bind, Except.bind, Except.ok.injEq, Prod.mk.injEq]
    by_cases h : rest.size = 0
    · rw [if_pos h, ByteArray.size_eq_zero_iff.mp h]
      simp [pure, Except.pure]
    · rw [if_neg h]
      constructor
      · exact nofun
      · rintro ⟨_, rfl⟩
        exact absurd ByteArray.size_empty h

end Layout

theorem Leaf.make_eq (l : Leaf) : Leaf.make l.key l.value = l := by
  obtain ⟨key, value, digest, rfl⟩ := l
  rfl

theorem Branch.isEmpty_children_eq_false {b : Branch} :
    b.children.isEmpty = false ↔ ∃ n c, b.child? n = some c := by
  simp only [List.isEmpty_eq_false_iff_exists_mem, Prod.exists, mem_children]

namespace Node

open Layout

/-- A branch has a child, and the sizes of a leaf fit the fields that hold them. -/
def Storable : Node → Prop
  | .branch b => b.children.isEmpty = false
  | .leaf l => l.key.length < Bytes.span 8 ∧ l.value.size < Bytes.span 8

def fields : Node → Fields
  | .branch b => .branch b
  | .leaf l => .leaf l.key.bytes l.value l.digest

theorem slotsBytes_init (l : List (Option Child)) (out : ByteArray) :
    l.foldl (fun out s => out ++ slotBytes s) out = out ++ slotsBytes l := by
  induction l generalizing out with
  | nil => simp [slotsBytes]
  | cons s l ih =>
    have hs : slotsBytes (s :: l) = slotBytes s ++ slotsBytes l := by
      show l.foldl (fun out s => out ++ slotBytes s) (ByteArray.empty ++ slotBytes s) = _
      rw [ih, ByteArray.empty_append]
    rw [List.foldl_cons, ih, hs, ByteArray.append_assoc]

theorem bytes_fields (x : Node) : x.fields.bytes = x.encode := by
  cases x with
  | branch b => exact (slotsBytes_init _ _).symm
  | leaf l => simp [fields, Fields.bytes, encode, leafFields]

theorem ofFields_eq_ok {f : Fields} {x : Node} :
    ofFields f = .ok x ∧ f.Fits ↔ f = x.fields ∧ x.Storable := by
  cases f with
  | branch b =>
    rw [ofFields]
    cases hb : b.children.isEmpty with
    | true =>
      rw [if_pos rfl]
      constructor
      · exact fun h => nomatch h.1
      · rintro ⟨hf, hs⟩
        cases x with
        | branch b' =>
          cases hf
          rw [Storable, hb] at hs
          cases hs
        | leaf l => cases hf
    | false =>
      rw [if_neg Bool.false_ne_true]
      constructor
      · rintro ⟨h, _⟩
        cases h
        exact ⟨rfl, hb⟩
      · rintro ⟨hf, _⟩
        cases x with
        | branch b' =>
          cases hf
          exact ⟨rfl, trivial⟩
        | leaf l => cases hf
  | leaf key value d =>
    rw [ofFields]
    constructor
    · rintro ⟨h, hfit⟩
      cases hp : Path.ofBytes? key with
      | none =>
        rw [hp] at h
        cases h
      | some path =>
        obtain rfl := Path.bytes_of_ofBytes? hp
        simp only [hp] at h
        split at h
        · next hd =>
          cases h
          refine ⟨?_, ?_, hfit.2⟩
          · rw [← hd]
            rfl
          · have := hfit.1
            rwa [Path.size_bytes] at this
        · cases h
    · rintro ⟨hf, hs⟩
      cases x with
      | branch b => cases hf
      | leaf l =>
        cases hf
        refine ⟨?_, ?_, hs.2⟩
        · simp only [Path.ofBytes?_bytes, Leaf.make_eq, if_true]
        · rw [Path.size_bytes]
          exact hs.1

theorem decode_eq_ok {b : ByteArray} {x : Node} :
    decode b = .ok x ↔ b = x.encode ∧ x.Storable := by
  have hread : decode b = .ok x ↔ ∃ f, b = f.bytes ∧ ofFields f = .ok x ∧ f.Fits := by
    unfold decode
    constructor
    · intro h
      cases hf : all Layout.fields b with
      | error d =>
        rw [hf] at h
        cases h
      | ok f =>
        rw [hf] at h
        rw [all_eq_ok, fields_eq_ok, ByteArray.append_empty] at hf
        exact ⟨f, hf.1, h, hf.2⟩
    · rintro ⟨f, rfl, h, hfit⟩
      have hf : all Layout.fields f.bytes = .ok f := by
        rw [all_eq_ok, fields_eq_ok, ByteArray.append_empty]
        exact ⟨rfl, hfit⟩
      rw [hf]
      exact h
  simp only [hread, ofFields_eq_ok]
  constructor
  · rintro ⟨f, rfl, rfl, hs⟩
    exact ⟨bytes_fields x, hs⟩
  · rintro ⟨rfl, hs⟩
    exact ⟨x.fields, (bytes_fields x).symm, rfl, hs⟩

theorem decode_encode {x : Node} (h : x.Storable) : decode x.encode = .ok x :=
  decode_eq_ok.mpr ⟨rfl, h⟩

/-! ## Sizes -/

theorem le_size_slotsBytes {l : List (Option Child)} {c : Child} (h : some c ∈ l) :
    33 ≤ (slotsBytes l).size := by
  induction l with
  | nil => exact absurd h List.not_mem_nil
  | cons s l ih =>
    rw [slotsBytes, List.foldl_cons, slotsBytes_init, ByteArray.empty_append, ByteArray.size_append]
    obtain rfl | h := List.mem_cons.mp h
    · have := c.digest.size_bytes
      simp only [slotBytes, ByteArray.size_append, List.size_toByteArray, List.length_singleton]
      omega
    · have := ih h
      omega

/-- No node is stored in so few bytes as one digest has. -/
theorem lt_size_encode {x : Node} (h : x.Storable) : 32 < x.encode.size := by
  rw [← bytes_fields]
  cases x with
  | branch b =>
    obtain ⟨n, c, hc⟩ := Branch.isEmpty_children_eq_false.mp h
    have hmem : some c ∈ b.slots.toList := by
      rw [Branch.child?] at hc
      rw [← hc, Vector.mem_toList_iff]
      exact Vector.getElem_mem _
    have := le_size_slotsBytes hmem
    rw [fields, Fields.bytes, ByteArray.size_append, Bytes.size_littleBytes]
    omega
  | leaf l =>
    have := l.digest.size_bytes
    simp only [fields, Fields.bytes, ByteArray.size_append, Bytes.size_littleBytes]
    omega

end Node

end VersionedTrie
