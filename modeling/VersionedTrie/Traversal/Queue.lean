/-! # Queues

A first-in-first-out queue, kept as a front and a reversed back with their joint size, so that each
operation costs little however long the queue is. A queue is known by its list, the oldest element
first: `toList_push` and `pop_eq` say what adding and taking do to it.
-/

set_option autoImplicit false

namespace VersionedTrie

structure Queue (α : Type) where
  front : List α
  back : List α
  size : Nat
  size_eq : size = front.length + back.length

namespace Queue

variable {α : Type}

def empty : Queue α := ⟨[], [], 0, rfl⟩

def toList (q : Queue α) : List α := q.front ++ q.back.reverse

def push (q : Queue α) (a : α) : Queue α where
  front := q.front
  back := a :: q.back
  size := q.size + 1
  size_eq := by rw [q.size_eq, List.length_cons, Nat.add_assoc]

/-- The oldest element, and the queue without it. -/
def pop (q : Queue α) : Option (α × Queue α) :=
  match q with
  | ⟨a :: front, back, size, h⟩ =>
    some (a, ⟨front, back, size - 1, by rw [h, List.length_cons]; omega⟩)
  | ⟨[], back, size, h⟩ =>
    match hb : back.reverse with
    | [] => none
    | a :: front =>
      some (a, ⟨front, [], size - 1, by
        have hl := congrArg List.length hb
        simp only [List.length_reverse, List.length_cons] at hl
        simp only [h, hl, List.length_nil]
        omega⟩)

@[simp] theorem toList_empty : (empty : Queue α).toList = [] := rfl

@[simp] theorem toList_push (q : Queue α) (a : α) : (q.push a).toList = q.toList ++ [a] := by
  simp [push, toList]

theorem size_eq_length (q : Queue α) : q.size = q.toList.length := by
  simp [toList, q.size_eq]

theorem pop_eq (q : Queue α) :
    q.pop.map (fun r => r.1 :: r.2.toList) = if q.toList = [] then none else some q.toList := by
  obtain ⟨front, back, size, h⟩ := q
  cases front with
  | cons a front => simp [pop, toList]
  | nil =>
    unfold pop
    split
    · next hf => simp at hf
    · next hf =>
      simp only [mk.injEq] at hf
      obtain ⟨_, rfl, rfl⟩ := hf
      split
      · next hb => simp [toList, List.reverse_eq_nil_iff.mp hb]
      · next hb => simp [toList, hb]

end Queue

end VersionedTrie
