import Mathlib.Data.List.Induction
import VersionedTrie.Store.Batch

/-! # The last operation on a key

Of the operations of a batch on a key the last one counts (`getElem?_apply`). So a batch that is
applied twice in a row does what it does once, two batches without a key in common may change places,
and of such batches in any order, with any repetitions, only matters which of them occur
(`foldl_apply`).
-/

set_option autoImplicit false

namespace VersionedTrie.WriteBatch

variable {a b : WriteBatch} {key : ByteArray}

/-- The last operation on the key, if there is any. -/
def last? (batch : WriteBatch) (key : ByteArray) : Option WriteOp :=
  batch.reverse.find? (·.key = key)

theorem last?_concat (batch : WriteBatch) (op : WriteOp) (key : ByteArray) :
    last? (batch ++ [op]) key = if op.key = key then some op else last? batch key := by
  rw [last?, List.reverse_append, List.reverse_singleton, List.singleton_append, List.find?_cons]
  by_cases h : op.key = key <;> simp [h, last?]

/-- The last operation on a key says what it holds. -/
theorem getElem?_apply (batch : WriteBatch) (m : Contents) (key : ByteArray) :
    (apply batch m)[key]? = (batch.last? key).elim m[key]? WriteOp.outcome := by
  induction batch using List.reverseRecOn with
  | nil => rfl
  | append_singleton batch op ih =>
    rw [apply_append, apply_cons, apply_nil, WriteOp.apply_get?, last?_concat, ih]
    by_cases h : op.key = key <;> simp [h]

/-- What contents made of nothing hold has been put. -/
theorem put_mem_of_apply {value : ByteArray} (h : (apply b ∅)[key]? = some value) :
    .put key value ∈ b := by
  rw [getElem?_apply, Std.ExtTreeMap.getElem?_empty] at h
  cases hlast : b.last? key with
  | none =>
    rw [hlast] at h
    cases h
  | some op =>
    rw [hlast] at h
    have hkey : op.key = key := by simpa using List.find?_some hlast
    cases op with
    | delete k => cases h
    | put k v =>
      cases h
      cases hkey
      exact List.mem_reverse.mp (List.mem_of_find?_eq_some hlast)

theorem last?_eq_none (h : ∀ op ∈ b, op.key ≠ key) : b.last? key = none := by
  rw [last?, List.find?_eq_none]
  intro op hop
  simpa using h op (List.mem_reverse.mp hop)

theorem apply_apply (a : WriteBatch) (m : Contents) : apply a (apply a m) = apply a m := by
  refine Std.ExtTreeMap.ext_getElem? fun key => ?_
  rw [getElem?_apply, getElem?_apply]
  cases a.last? key <;> rfl

/-- No key has operations of both batches. -/
def Parted (a b : WriteBatch) : Prop := ∀ op ∈ a, ∀ op' ∈ b, op.key ≠ op'.key

theorem apply_comm (h : Parted a b) (m : Contents) :
    apply a (apply b m) = apply b (apply a m) := by
  refine Std.ExtTreeMap.ext_getElem? fun key => ?_
  rw [getElem?_apply, getElem?_apply, getElem?_apply, getElem?_apply]
  by_cases hkey : ∃ op ∈ a, op.key = key
  · obtain ⟨op, hop, rfl⟩ := hkey
    have hb : b.last? op.key = none := last?_eq_none fun op' hop' => (h op hop op' hop').symm
    rw [hb]
    rfl
  · have ha : a.last? key = none := last?_eq_none fun op hop e => hkey ⟨op, hop, e⟩
    rw [ha]
    rfl

/-- Two batches without a key in common, applied in any order and any number of times; `true` stands
for the first one. -/
theorem foldl_apply (h : Parted a b) (word : List Bool) (m : Contents) :
    word.foldl (fun m first => apply (if first then a else b) m) m =
      (if false ∈ word then apply b else id) ((if true ∈ word then apply a else id) m) := by
  induction word generalizing m with
  | nil => simp
  | cons first word ih =>
    rw [List.foldl_cons, ih]
    cases first with
    | true => by_cases ha : true ∈ word <;> simp [ha, apply_apply]
    | false =>
      by_cases ha : true ∈ word <;> by_cases hb : false ∈ word <;>
        simp [ha, hb, apply_apply, apply_comm h]

end VersionedTrie.WriteBatch
