import VersionedTrie.Store.FrameLog

/-! # Records

The payload of a frame is its records one after another, and the frame says of each record where its
value stands. Reading the payload record by record says the same of every key, with the same
positions (`readPayload_payload`), as long as every length fits its four bytes.
-/

set_option autoImplicit false

namespace VersionedTrie

namespace FrameLog

open Bytes

theorem number?_of_eq_mod {b a c : ByteArray} {i n : Nat} (h : b = a ++ littleBytes 4 n ++ c)
    (hi : a.size = i) : number? b i = some (n % span 4) := by
  have hb : i + 4 ≤ b.size := by
    rw [h]
    simp only [ByteArray.size_append, size_littleBytes]
    omega
  rw [number?, if_pos hb, extract_of_eq h hi (by simp), ofLittleBytes_littleBytes_mod]

theorem number?_of_eq {b a c : ByteArray} {i n : Nat} (h : b = a ++ littleBytes 4 n ++ c)
    (hi : a.size = i) (hn : n < span 4) : number? b i = some n := by
  rw [number?_of_eq_mod h hi, Nat.mod_eq_of_lt hn]

/-! ## A record in a payload -/

def recordBytes : Record → ByteArray
  | (key, some value) =>
    [1].toByteArray ++ littleBytes 4 key.size ++ key ++ littleBytes 4 value.size ++ value
  | (key, none) => [2].toByteArray ++ littleBytes 4 key.size ++ key

/-- What a frame says of a record that stands at position `i` of the payload. -/
def locationAt (i : Nat) : Record → Location
  | (key, some value) =>
    (key, some ⟨frameHeaderSize + (i + 1 + 4 + key.size + 4), value.size % span 4⟩)
  | (key, none) => (key, none)

theorem addRecord_eq (p : ByteArray) (r : Record) :
    addRecord p r = (p ++ recordBytes r, locationAt p.size r) := by
  obtain ⟨key, _ | value⟩ := r
  · simp [addRecord, recordBytes, locationAt, ByteArray.append_assoc,
      -ByteArray.append_toByteArray_singleton]
  · have hfront : (p ++ [1].toByteArray ++ littleBytes 4 key.size ++ key ++
        littleBytes 4 value.size).size = p.size + 1 + 4 + key.size + 4 := by
      simp
    simp only [addRecord, recordBytes, locationAt, hfront]
    simp only [ByteArray.append_assoc]

theorem size_recordBytes (key : ByteArray) (value : Option ByteArray) :
    (recordBytes (key, value)).size =
      5 + key.size + value.elim 0 fun value => 4 + value.size := by
  cases value with
  | none => simp [recordBytes]
  | some value =>
    simp [recordBytes]
    omega

/-- Every length in a record fits its four bytes. -/
def FitsRecord (r : Record) : Prop :=
  r.1.size < span 4 ∧ ∀ value, r.2 = some value → value.size < span 4

theorem fitsRecord_of_size_lt {r : Record} (h : (recordBytes r).size < span 4) :
    FitsRecord r := by
  obtain ⟨key, value⟩ := r
  rw [size_recordBytes] at h
  refine ⟨by dsimp only; omega, ?_⟩
  rintro value rfl
  dsimp only [Option.elim_some] at h
  omega

theorem readRecord_recordBytes {b p q : ByteArray} {r : Record} (hb : b = p ++ recordBytes r ++ q)
    (hr : FitsRecord r) :
    readRecord b p.size = .ok (locationAt p.size r, p.size + (recordBytes r).size) := by
  obtain ⟨key, _ | value⟩ := r
  · -- a delete
    simp only [recordBytes] at hb
    have htag : at0 b p.size = 2 := at0_of_eq (by simpa only [ByteArray.append_assoc] using hb) rfl
    have hsize : number? b (p.size + 1) = some key.size :=
      number?_of_eq (a := p ++ [2].toByteArray) (c := key ++ q)
        (by simpa only [ByteArray.append_assoc] using hb) (by simp) hr.1
    have hkey : b.extract (p.size + 5) (p.size + 5 + key.size) = key :=
      extract_of_eq (a := p ++ [2].toByteArray ++ littleBytes 4 key.size) (c := q)
        (by simpa only [ByteArray.append_assoc] using hb) (by simp) rfl
    have hlong : p.size + 5 + key.size ≤ b.size := by
      rw [hb]
      simp
      omega
    simp only [readRecord, htag, hsize, if_neg (by omega : ¬b.size < p.size + 5 + key.size), hkey]
    rw [if_neg (by decide)]
    simp [locationAt, size_recordBytes]
    omega
  · -- a put
    simp only [recordBytes] at hb
    have htag : at0 b p.size = 1 := at0_of_eq (by simpa only [ByteArray.append_assoc] using hb) rfl
    have hsize : number? b (p.size + 1) = some key.size :=
      number?_of_eq (a := p ++ [1].toByteArray) (c := key ++ littleBytes 4 value.size ++ value ++ q)
        (by simpa only [ByteArray.append_assoc] using hb) (by simp) hr.1
    have hkey : b.extract (p.size + 5) (p.size + 5 + key.size) = key :=
      extract_of_eq (a := p ++ [1].toByteArray ++ littleBytes 4 key.size)
        (c := littleBytes 4 value.size ++ value ++ q)
        (by simpa only [ByteArray.append_assoc] using hb) (by simp) rfl
    have hvalue : number? b (p.size + 5 + key.size) = some value.size :=
      number?_of_eq (a := p ++ [1].toByteArray ++ littleBytes 4 key.size ++ key) (c := value ++ q)
        (by simpa only [ByteArray.append_assoc] using hb) (by simp) (hr.2 value rfl)
    have hlong : p.size + 5 + key.size + 4 + value.size ≤ b.size := by
      rw [hb]
      simp
      omega
    simp only [readRecord, htag, hsize, if_neg (by omega : ¬b.size < p.size + 5 + key.size), hkey,
      hvalue, if_neg (by omega : ¬b.size < p.size + 5 + key.size + 4 + value.size), if_true]
    simp [locationAt, size_recordBytes, Nat.mod_eq_of_lt (hr.2 value rfl)]
    omega

/-! ## Payloads -/

def payload : List Record → ByteArray
  | [] => ByteArray.empty
  | r :: rs => recordBytes r ++ payload rs

theorem payload_append (rs rs' : List Record) : payload (rs ++ rs') = payload rs ++ payload rs' := by
  induction rs with
  | nil => simp [payload]
  | cons r rs ih => simp [payload, ih, ByteArray.append_assoc]

/-- What a frame says of records that stand at position `i` of the payload and after it. -/
def locations : Nat → List Record → List Location
  | _, [] => []
  | i, r :: rs => locationAt i r :: locations (i + (recordBytes r).size) rs

theorem addRecords_eq (p : ByteArray) (rs : List Record) :
    addRecords p rs = (p ++ payload rs, locations p.size rs) := by
  induction rs generalizing p with
  | nil => simp [addRecords, payload, locations]
  | cons r rs ih =>
    simp [addRecords, addRecord_eq, ih, payload, locations, ByteArray.append_assoc]

theorem frame_eq (rs : List Record) : frame rs = (enclose (payload rs), locations 0 rs) := by
  simp [frame, addRecords_eq]

theorem length_le_size_payload (rs : List Record) : rs.length ≤ (payload rs).size := by
  induction rs with
  | nil => simp
  | cons r rs ih =>
    obtain ⟨key, value⟩ := r
    simp only [payload, List.length_cons, ByteArray.size_append, size_recordBytes]
    omega

theorem readRecords_payload {b p : ByteArray} {rs : List Record} (hb : b = p ++ payload rs)
    (hrs : ∀ r ∈ rs, FitsRecord r) {fuel : Nat} (hfuel : rs.length ≤ fuel) (done : List Location) :
    readRecords b fuel p.size done = .ok (done.reverse ++ locations p.size rs) := by
  induction rs generalizing p fuel done with
  | nil =>
    have hend : b.size ≤ p.size := by simp [hb, payload]
    cases fuel <;> simp [readRecords, locations, hend]
  | cons r rs ih =>
    obtain ⟨fuel, rfl⟩ : ∃ n, fuel = n + 1 := ⟨fuel - 1, by simp at hfuel; omega⟩
    have hmore : ¬b.size ≤ p.size := by
      have := length_le_size_payload (r :: rs)
      simp only [List.length_cons] at this
      rw [hb, ByteArray.size_append]
      omega
    have hread : readRecord b p.size = .ok (locationAt p.size r, p.size + (recordBytes r).size) :=
      readRecord_recordBytes (q := payload rs)
        (by simpa only [payload, ByteArray.append_assoc] using hb) (hrs r List.mem_cons_self)
    have hrest := ih (p := p ++ recordBytes r)
      (by simpa only [payload, ByteArray.append_assoc] using hb)
      (fun s hs => hrs s (List.mem_cons_of_mem r hs)) (by simpa using hfuel)
      (locationAt p.size r :: done)
    rw [ByteArray.size_append] at hrest
    simp [readRecords, hmore, hread, hrest, locations]

/-- The payload fits the four bytes of its length. -/
def Fits (rs : List Record) : Prop := (payload rs).size < span 4

instance (rs : List Record) : Decidable (Fits rs) := inferInstanceAs (Decidable (_ < _))

theorem Fits.records {rs : List Record} (h : Fits rs) : ∀ r ∈ rs, FitsRecord r := by
  induction rs with
  | nil => simp
  | cons r rs ih =>
    simp only [Fits, payload, ByteArray.size_append] at h
    intro s hs
    obtain rfl | hs := List.mem_cons.mp hs
    · exact fitsRecord_of_size_lt (by omega)
    · exact ih (by unfold Fits; omega) s hs

theorem readPayload_payload {rs : List Record} (h : Fits rs) :
    readPayload (payload rs) = .ok (locations 0 rs) := by
  have := readRecords_payload (p := ByteArray.empty) (b := payload rs) (by simp) h.records
    (length_le_size_payload rs) []
  simpa [readPayload] using this

end FrameLog

end VersionedTrie
