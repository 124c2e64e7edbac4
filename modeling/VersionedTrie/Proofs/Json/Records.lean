import VersionedTrie.Json.Record

/-! # Reading records

The fields of a record are found again by their names (`fields?_record`), and so are bytes and lists
(`bytes?_ofBytes`, `listOf?_array`). Where two ways of reading items differ only by a conversion, so
do the ways of reading lists and optional fields that are made of them.
-/

set_option autoImplicit false

namespace VersionedTrie.Json.Value

/-- A field of a record whose names are distinct is found. -/
theorem field?_of_mem {fields : List (String × Value)} (hnames : (fields.map (·.1)).Nodup)
    {name : String} {v : Value} (h : (name, v) ∈ fields) :
    field? (fields.map fun (name, v) => (some name, v)) name = some (some v) := by
  have hfilter : (fields.map fun (name, v) => ((some name, v) : Text × Value)).filter
      (·.1 = some name) = [(some name, v)] := by
    induction fields with
    | nil => exact absurd h List.not_mem_nil
    | cons f fields ih =>
      obtain ⟨n, w⟩ := f
      obtain ⟨hn, hnames⟩ := List.nodup_cons.mp hnames
      obtain h | h := List.mem_cons.mp h
      · obtain ⟨rfl, rfl⟩ := Prod.mk.inj h
        have hrest : (fields.map fun (name, v) => ((some name, v) : Text × Value)).filter
            (·.1 = some name) = [] := by
          rw [List.filter_eq_nil_iff]
          intro m hm
          obtain ⟨⟨k, u⟩, hk, rfl⟩ := List.mem_map.mp hm
          simp only [Option.some.injEq, decide_eq_true_eq]
          rintro rfl
          exact hn (List.mem_map.mpr ⟨_, hk, rfl⟩)
        rw [List.map_cons, List.filter_cons_of_pos (by simp), hrest]
      · have hne : n ≠ name := by
          rintro rfl
          exact hn (List.mem_map.mpr ⟨_, h, rfl⟩)
        rw [List.map_cons, List.filter_cons_of_neg (by simpa using hne), ih hnames h]
  rw [field?, hfilter]

theorem mapM_of_forall {α β : Type} {f : α → Option β} {g : α → β} {as : List α}
    (h : ∀ a ∈ as, f a = some (g a)) : as.mapM f = some (as.map g) := by
  induction as with
  | nil => rfl
  | cons a as ih =>
    rw [List.mapM_cons, h a List.mem_cons_self, ih fun b hb => h b (List.mem_cons_of_mem a hb)]
    rfl

theorem fields?_record {fields : List (String × Value)} {names : List String}
    (hnames : names.Nodup) (h : fields.map (·.1) = names) :
    (record fields).fields? names = some (fields.map fun f => some f.2) := by
  subst h
  have hnamed : (fields.map fun (name, v) => ((some name, v) : Text × Value)).any (·.1.isNone) =
      false := by simp
  rw [record, fields?, fieldsOfMembers?, if_neg (by rw [hnamed]; exact Bool.false_ne_true),
    List.mapM_map]
  exact mapM_of_forall fun f hf => field?_of_mem hnames hf

theorem bytes?_ofBytes (b : ByteArray) : (ofBytes b).bytes? = some b := by
  have hbyte (x : UInt8) : byte? (.natural x.toNat) = some x := by
    rw [byte?, if_pos x.toNat_lt]
    simp
  have hitems : (b.data.toList.map fun x => Value.natural x.toNat).mapM byte? =
      some (b.data.toList.map id) := by
    rw [List.mapM_map]
    exact mapM_of_forall fun x _ => hbyte x
  rw [ofBytes, bytes?, items?]
  simp only [Option.bind_eq_bind, Option.bind_some, hitems, List.map_id]
  exact congrArg some (ByteArray.ext (by simp))

theorem listOf?_array {α : Type} {read : Value → Option α} {write : α → Value} {as : List α}
    (h : ∀ a ∈ as, read (write a) = some a) : (array (as.map write)).listOf? read = some as := by
  have hread : as.mapM (read ∘ write) = some (as.map id) := mapM_of_forall h
  rw [listOf?, items?]
  simp only [Option.bind_eq_bind, Option.bind_some, List.mapM_map, hread, List.map_id]

/-! ### Two ways of reading -/

section

variable {α β : Type} {read : Value → Option α} {raw : Value → Option β} {f : α → β}

theorem mapM_eq_some_iff (h : ∀ v a, read v = some a ↔ raw v = some (f a)) {vs : List Value}
    {as : List α} : vs.mapM read = some as ↔ vs.mapM raw = some (as.map f) := by
  induction vs generalizing as with
  | nil => simp [List.map_eq_nil_iff, eq_comm]
  | cons v vs ih =>
    rw [List.mapM_cons, List.mapM_cons]
    simp only [Option.bind_eq_bind, Option.bind_eq_some_iff, Option.pure_def, Option.some.injEq]
    constructor
    · rintro ⟨a, ha, as, has, rfl⟩
      exact ⟨f a, (h v a).mp ha, as.map f, ih.mp has, rfl⟩
    · rintro ⟨b, hb, bs, hbs, he⟩
      cases as with
      | nil => cases he
      | cons a as =>
        obtain ⟨rfl, rfl⟩ := List.cons.inj he
        exact ⟨a, (h v a).mpr hb, as, ih.mpr hbs, rfl⟩

theorem listOf?_eq_some_iff (h : ∀ v a, read v = some a ↔ raw v = some (f a)) {v : Value}
    {as : List α} : v.listOf? read = some as ↔ v.listOf? raw = some (as.map f) := by
  rw [listOf?, listOf?]
  cases v.items? with
  | none => simp
  | some vs => exact mapM_eq_some_iff h

theorem optional?_eq_some_iff (h : ∀ v a, read v = some a ↔ raw v = some (f a)) {v : Option Value}
    {a : Option α} : optional? read v = some a ↔ optional? raw v = some (a.map f) := by
  have hread (v : Value) : (read v).map some = some a ↔ (raw v).map some = some (a.map f) := by
    cases a with
    | none => simp
    | some a => simpa using h v a
  have hnone : (some none : Option (Option α)) = some a ↔
      (some none : Option (Option β)) = some (a.map f) := by
    cases a <;> simp
  cases v with
  | none => exact hnone
  | some v =>
    cases v with
    | null => exact hnone
    | bool b => exact hread _
    | natural n => exact hread _
    | otherNumber => exact hread _
    | text t => exact hread _
    | array vs => exact hread _
    | object ms => exact hread _

end

end VersionedTrie.Json.Value
