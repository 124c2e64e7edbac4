import VersionedTrie.Bytes.Order

/-! # Write batches

A store takes its changes in batches, each an ordered list of puts and deletes: of several
operations on one key the last one counts. The contents of a store are a finite map from byte
strings to byte strings, and a batch is a function on contents.
-/

set_option autoImplicit false

namespace VersionedTrie

inductive WriteOp where
  | put (key value : ByteArray)
  | delete (key : ByteArray)
  deriving DecidableEq

abbrev WriteBatch := List WriteOp

abbrev Contents := ByteMap ByteArray

namespace WriteOp

def key : WriteOp → ByteArray
  | .put k _ => k
  | .delete k => k

/-- What the key of the operation holds afterwards. -/
def outcome : WriteOp → Option ByteArray
  | .put _ v => some v
  | .delete _ => none

def apply (op : WriteOp) (m : Contents) : Contents :=
  match op with
  | .put k v => m.insert k v
  | .delete k => m.erase k

theorem apply_get? (op : WriteOp) (m : Contents) (k : ByteArray) :
    (op.apply m)[k]? = if op.key = k then op.outcome else m[k]? := by
  cases op with
  | put key value =>
    by_cases h : key = k <;> simp [apply, WriteOp.key, outcome, Std.ExtTreeMap.getElem?_insert, h]
  | delete key =>
    by_cases h : key = k <;> simp [apply, WriteOp.key, outcome, Std.ExtTreeMap.getElem?_erase, h]

end WriteOp

namespace WriteBatch

def apply (batch : WriteBatch) (m : Contents) : Contents :=
  batch.foldl (fun m op => op.apply m) m

@[simp] theorem apply_nil (m : Contents) : apply [] m = m := rfl

@[simp] theorem apply_cons (op : WriteOp) (batch : WriteBatch) (m : Contents) :
    apply (op :: batch) m = apply batch (op.apply m) := rfl

theorem apply_append (a b : WriteBatch) (m : Contents) :
    apply (a ++ b) m = apply b (apply a m) := by
  simp [apply]

theorem getElem?_apply_of_ne {batch : WriteBatch} {key : ByteArray}
    (h : ∀ op ∈ batch, op.key ≠ key) (m : Contents) : (apply batch m)[key]? = m[key]? := by
  induction batch generalizing m with
  | nil => rfl
  | cons op batch ih =>
    rw [apply_cons, ih fun o ho => h o (List.mem_cons_of_mem op ho), WriteOp.apply_get?,
      if_neg (h op List.mem_cons_self)]

/-- All operations on a key that agree with each other decide what it holds. -/
theorem getElem?_apply_eq {batch : WriteBatch} {key : ByteArray} {outcome : Option ByteArray}
    (hall : ∀ op ∈ batch, op.key = key → op.outcome = outcome) (m : Contents)
    (hm : m[key]? = outcome ∨ ∃ op ∈ batch, op.key = key) : (apply batch m)[key]? = outcome := by
  induction batch generalizing m with
  | nil =>
    obtain hm | ⟨_, hop, _⟩ := hm
    · exact hm
    · exact absurd hop List.not_mem_nil
  | cons op batch ih =>
    refine ih (fun o ho => hall o (List.mem_cons_of_mem op ho)) _ ?_
    rw [WriteOp.apply_get?]
    by_cases h : op.key = key
    · exact .inl (by rw [if_pos h, hall op List.mem_cons_self h])
    · rw [if_neg h]
      refine hm.imp_right ?_
      rintro ⟨o, ho, hkey⟩
      obtain rfl | ho := List.mem_cons.mp ho
      · exact absurd hkey h
      · exact ⟨o, ho, hkey⟩

end WriteBatch

end VersionedTrie
