import PagedDb.Basic

namespace PagedDb

-- type_t
inductive FieldType where
  | int | double | char
  deriving DecidableEq, Repr

-- field_t; a double is kept as its 64 bits, a string as its bytes.
inductive Field where
  | int (value : BitVec 32)
  | double (bits : BitVec 64)
  | char (bytes : List UInt8)
  deriving DecidableEq, Repr

-- Tuple::fields_
abbrev Tuple := List Field

-- Tuple::field_type: the alternative the variant holds.
def Field.fieldType : Field → FieldType
  | .int _ => .int
  | .double _ => .double
  | .char _ => .char

-- INT_SIZE, DOUBLE_SIZE and CHAR_SIZE of types.hpp.
def sizeOfFixed (charSize : Nat) : FieldType → Nat
  | .int => 4
  | .double => 8
  | .char => charSize

-- A schema; the constructor's checks, equal lengths and no name twice, are fields.
structure TupleDesc (charSize : Nat) where
  types : List FieldType
  names : List String
  sameLength : types.length = names.length
  distinct : names.Nodup

-- The constructor's `off += size_of_fixed(types_[i])` loop, recording each start.
def fieldOffsets (charSize off : Nat) : List FieldType → List Nat
  | [] => []
  | ty :: rest => off :: fieldOffsets charSize (off + sizeOfFixed charSize ty) rest

def firstDuplicate (seen : List String) : List String → Option String
  | [] => none
  | name :: rest => if name ∈ seen then some name else firstDuplicate (name :: seen) rest

theorem nodup_of_firstDuplicate {seen names : List String} (none : firstDuplicate seen names = none) :
    names.Nodup ∧ ∀ name ∈ names, name ∉ seen := by
  induction names generalizing seen with
  | nil => simp
  | cons name rest ih =>
    simp only [firstDuplicate] at none
    split at none
    · cases none
    · obtain ⟨nodup, fresh⟩ := ih none
      refine ⟨List.nodup_cons.mpr ⟨fun member => fresh name member (List.mem_cons_self _ _), nodup⟩, ?_⟩
      intro other member
      rcases List.mem_cons.mp member with rfl | later
      · assumption
      · exact fun old => fresh other later (List.mem_cons_of_mem _ old)

namespace TupleDesc
variable {c : Nat} (td : TupleDesc c)

-- TupleDesc::TupleDesc(types, names)
def make (types : List FieldType) (names : List String) : Except String (TupleDesc c) :=
  if same : types.length = names.length then
    match found : firstDuplicate [] names with
    | some name => throw ("TupleDesc: duplicate field name: " ++ name)
    | none => pure ⟨types, names, same, (nodup_of_firstDuplicate found).1⟩
  else throw "TupleDesc: types and names must have same length"

-- TupleDesc::merge: td1's fields, then td2's, through the constructor.
def merge (td1 td2 : TupleDesc c) : Except String (TupleDesc c) :=
  make (td1.types ++ td2.types) (td1.names ++ td2.names)

def offsets : List Nat := fieldOffsets c 0 td.types

def length : Nat := (td.types.map (sizeOfFixed c)).sum

def compatible (t : Tuple) : Bool :=
  t.length == td.types.length && (t.zip td.types).all fun (f, ty) => f.fieldType == ty

end TupleDesc

theorem firstDuplicate_append {seen front : List String} (back : List String) (none : firstDuplicate seen front = none) :
    firstDuplicate seen (front ++ back) = firstDuplicate (front.reverse ++ seen) back := by
  induction front generalizing seen with
  | nil => rfl
  | cons name front ih =>
    rw [firstDuplicate] at none
    split at none
    · cases none
    · rw [List.cons_append, firstDuplicate, if_neg ‹_›, ih none]
      simp

theorem firstDuplicate_nodup {extra seen names : List String} (nodup : names.Nodup)
    (apart : ∀ name ∈ names, name ∉ extra) : firstDuplicate (extra ++ seen) names = names.find? (· ∈ seen) := by
  induction names generalizing extra with
  | nil => rfl
  | cons name rest ih =>
    obtain ⟨fresh, nodup⟩ := List.nodup_cons.mp nodup
    have outside := apart name (List.mem_cons_self name rest)
    rw [firstDuplicate, List.find?_cons]
    by_cases old : name ∈ seen
    · simp [old]
    · rw [if_neg (by simp [outside, old]), ← List.cons_append, ih nodup fun other member => ?_]
      · simp [old]
      · simp only [List.mem_cons, not_or]
        exact ⟨fun same => fresh (same ▸ member), apart other (List.mem_cons_of_mem name member)⟩

theorem TupleDesc.make_types {c : Nat} {types : List FieldType} {names : List String} {td : TupleDesc c}
    (made : TupleDesc.make types names = .ok td) : td.types = types := by
  unfold TupleDesc.make at made
  split at made
  · split at made
    · cases made
    · cases made; rfl
  · cases made

-- TupleDesc::merge builds the schema of td1's fields then td2's, unless a name of td2
-- is one of td1's: then the constructor throws, naming the first such name of td2.
theorem merge_fields {c : Nat} (td1 td2 : TupleDesc c) :
    (fun td => (td.types, td.names)) <$> td1.merge td2 =
      match td2.names.find? (· ∈ td1.names) with
      | some name => .error ("TupleDesc: duplicate field name: " ++ name)
      | none => .ok (td1.types ++ td2.types, td1.names ++ td2.names) := by
  have first : firstDuplicate [] td1.names = none :=
    (@firstDuplicate_nodup [] [] td1.names td1.distinct fun _ _ => List.not_mem_nil _).trans
      (List.find?_eq_none.mpr fun _ _ => by simp)
  have scan : firstDuplicate [] (td1.names ++ td2.names) = td2.names.find? (· ∈ td1.names) := by
    rw [firstDuplicate_append _ first, List.append_nil]
    simpa using @firstDuplicate_nodup [] td1.names.reverse td2.names td2.distinct fun _ _ => List.not_mem_nil _
  rw [TupleDesc.merge, TupleDesc.make, dif_pos (by simp [td1.sameLength, td2.sameLength])]
  split
  all_goals rename_i found; rw [found] at scan; rw [← scan]; rfl

-- The bytes serialize stores for a field: host order, a string cut and NUL padded.
def fieldBytes (charSize : Nat) : Field → List UInt8
  | .int v => leBytes v.toNat 4
  | .double v => leBytes v.toNat 8
  | .char s => s.take charSize ++ List.replicate (charSize - s.length) 0

-- What a field reads back as: a string ends at CHAR_SIZE or at its first NUL.
def Field.stored (charSize : Nat) : Field → Field
  | .char s => .char ((s.take charSize).takeWhile (· != 0))
  | f => f

def writeField (charSize ptr : Nat) : FieldType → Field → EStateM String Mem Unit
  | .int, .int v => modify fun m => storeBytes m ptr (leBytes v.toNat 4)
  | .double, .double v => modify fun m => storeBytes m ptr (leBytes v.toNat 8)
  | .char, .char s => modify fun m =>
    let n := min s.length charSize
    let m := storeBytes m ptr (s.take n)
    if n < charSize then memset m (ptr + n) (charSize - n) 0 else m
  | _, _ => throw "bad_variant_access"

def writeFields (charSize data : Nat) : List FieldType → List Nat → Tuple → EStateM String Mem Unit
  | ty :: types, off :: offs, f :: fields => do
    writeField charSize (data + off) ty f
    writeFields charSize data types offs fields
  | _ :: _, _ :: _, [] => throw "Tuple::get_field: out of range"
  | _, _, _ => pure ()

-- The `while (len < CHAR_SIZE && csrc[len] != '\0') ++len;` scan.
def cstrLen (m : Mem) (ptr : Nat) : Nat → Nat
  | 0 => 0
  | left+1 => if m ptr = 0 then 0 else cstrLen m (ptr + 1) left + 1

def readField (charSize : Nat) (m : Mem) (ptr : Nat) : FieldType → Field
  | .int => .int (BitVec.ofNat 32 (leValue (readBytes m ptr 4)))
  | .double => .double (BitVec.ofNat 64 (leValue (readBytes m ptr 8)))
  | .char => .char (readBytes m ptr (cstrLen m ptr charSize))

def readFields (charSize : Nat) (m : Mem) (data : Nat) : List FieldType → List Nat → Tuple
  | ty :: types, off :: offs => readField charSize m (data + off) ty :: readFields charSize m data types offs
  | _, _ => []

namespace TupleDesc
variable {c : Nat} (td : TupleDesc c)

-- TupleDesc::serialize(data, t), writing into the buffer at `data`.
def serialize (data : Nat) (t : Tuple) : EStateM String Mem Unit := do
  if !td.compatible t then throw "TupleDesc::serialize: tuple incompatible with schema"
  writeFields c data td.types td.offsets t

-- TupleDesc::deserialize(data)
def deserialize (m : Mem) (data : Nat) : Tuple := readFields c m data td.types td.offsets

def NulPadded (m : Mem) (data : Nat) : Prop :=
  ∀ off, (FieldType.char, off) ∈ td.types.zip td.offsets →
    ∀ j j', j' ≤ j → j < c → m (data + off + j') = 0 → m (data + off + j) = 0

end TupleDesc

def tupleBytes (charSize : Nat) (t : Tuple) : List UInt8 := (t.map (fieldBytes charSize)).flatten

section Codec
variable {c : Nat}

theorem compatible_iff (td : TupleDesc c) (t : Tuple) :
    td.compatible t ↔ t.map Field.fieldType = td.types := by
  suffices general : ∀ types : List FieldType,
      (t.length == types.length && (t.zip types).all fun (f, ty) => f.fieldType == ty) ↔
        t.map Field.fieldType = types from general td.types
  induction t with
  | nil => intro types; cases types <;> simp
  | cons f rest ih =>
    intro types
    cases types with
    | nil => simp
    | cons ty tys =>
      have tail := ih tys
      simp only [List.length_cons, List.zip_cons_cons, List.all_cons, List.map_cons, List.cons.injEq,
        Bool.and_eq_true, beq_iff_eq, Nat.add_right_cancel_iff] at tail ⊢
      rw [← tail]; tauto

theorem fieldBytes_length (f : Field) : (fieldBytes c f).length = sizeOfFixed c f.fieldType := by
  cases f <;> simp [fieldBytes, sizeOfFixed, Field.fieldType]; omega

theorem tupleBytes_length (t : Tuple) :
    (tupleBytes c t).length = ((t.map Field.fieldType).map (sizeOfFixed c)).sum := by
  induction t with
  | nil => rfl
  | cons f rest ih => simp only [tupleBytes, List.map_cons, List.flatten_cons, List.length_append,
      List.sum_cons, fieldBytes_length] at ih ⊢; rw [ih]

theorem writeField_eq (m : Mem) (ptr : Nat) (f : Field) :
    writeField c ptr f.fieldType f m = .ok () (storeBytes m ptr (fieldBytes c f)) := by
  cases f with
  | int v => rfl
  | double v => rfl
  | char s =>
    simp only [writeField, Field.fieldType, run_modify, fieldBytes, storeBytes_append, memset_eq_storeBytes]
    by_cases short : s.length < c
    · rw [if_pos (by omega), Nat.min_eq_left short.le, List.take_of_length_le short.le,
        List.take_of_length_le (by omega)]
    · rw [if_neg (by omega), Nat.min_eq_right (by omega), Nat.sub_eq_zero_of_le (by omega)]
      simp

theorem writeFields_eq (data : Nat) (types : List FieldType) :
    ∀ (off : Nat) (t : Tuple) (m : Mem), t.map Field.fieldType = types →
      writeFields c data types (fieldOffsets c off types) t m =
        .ok () (storeBytes m (data + off) (tupleBytes c t)) := by
  induction types with
  | nil => intro off t m typed; cases List.map_eq_nil_iff.mp typed; simp [writeFields, tupleBytes]
  | cons ty types ih =>
    intro off t m typed
    obtain ⟨f, fields, rfl, rfl, rest⟩ := List.map_eq_cons_iff.mp typed
    simp only [fieldOffsets, writeFields, run_bind, writeField_eq, ih _ _ _ rest, tupleBytes,
      List.map_cons, List.flatten_cons, storeBytes_append, fieldBytes_length, Nat.add_assoc]

theorem serialize_compatible (td : TupleDesc c) (data : Nat) (t : Tuple) (m : Mem)
    (compatible : td.compatible t) :
    td.serialize data t m = .ok () (storeBytes m data (tupleBytes c t)) := by
  simp only [TupleDesc.serialize, compatible, Bool.not_true, run_bind]
  exact writeFields_eq data td.types 0 t m ((compatible_iff td t).mp compatible)

theorem cstrLen_eq (m : Mem) (ptr left : Nat) :
    cstrLen m ptr left = ((readBytes m ptr left).takeWhile (· != 0)).length := by
  induction left generalizing ptr with
  | zero => rfl
  | succ left ih =>
    rw [cstrLen, readBytes_succ, List.takeWhile_cons]
    by_cases nul : m ptr = 0 <;> simp [nul, ih]

theorem cstrLen_le (m : Mem) (ptr left : Nat) : cstrLen m ptr left ≤ left := by
  induction left generalizing ptr with
  | zero => rfl
  | succ left ih => rw [cstrLen]; split <;> simp [ih]

theorem cstrLen_stops (m : Mem) (ptr left : Nat) (short : cstrLen m ptr left < left) :
    m (ptr + cstrLen m ptr left) = 0 := by
  induction left generalizing ptr with
  | zero => cases short
  | succ left ih =>
    rw [cstrLen] at short ⊢
    split
    · assumption
    · rename_i nonzero
      rw [if_neg nonzero] at short
      have := ih (ptr + 1) (by omega)
      rwa [Nat.add_assoc, Nat.add_comm 1] at this

theorem readField_congr {m m' : Mem} {ptr ptr' : Nat} (ty : FieldType)
    (same : ∀ j < sizeOfFixed c ty, m' (ptr' + j) = m (ptr + j)) :
    readField c m' ptr' ty = readField c m ptr ty := by
  cases ty with
  | int => simp only [readField, readBytes_shift m (show ∀ j < 4, _ from same)]
  | double => simp only [readField, readBytes_shift m (show ∀ j < 8, _ from same)]
  | char =>
    have scan : cstrLen m' ptr' c = cstrLen m ptr c := by
      rw [cstrLen_eq, cstrLen_eq, readBytes_shift m (show ∀ j < c, _ from same)]
    simp only [readField, scan]
    rw [readBytes_shift m fun j lt => same j (Nat.lt_of_lt_of_le lt (cstrLen_le m ptr c))]

theorem takeWhile_append_zeros (bytes : List UInt8) (k : Nat) :
    (bytes ++ List.replicate k 0).takeWhile (· != 0) = bytes.takeWhile (· != 0) := by
  induction bytes with
  | nil => cases k <;> rfl
  | cons b rest ih => by_cases nul : b = 0 <;> simp [List.takeWhile_cons, nul, ih]

theorem readField_fieldBytes (m : Mem) (ptr : Nat) (f : Field) :
    readField c (storeBytes m ptr (fieldBytes c f)) ptr f.fieldType = f.stored c := by
  cases f with
  | int v =>
    have back := readBytes_storeBytes m ptr (leBytes v.toNat 4)
    simp only [leBytes_length] at back
    simp only [readField, Field.fieldType, fieldBytes, back, leValue_leBytes, Field.stored]
    congr; apply BitVec.eq_of_toNat_eq; simp [Nat.mod_eq_of_lt v.isLt]
  | double v =>
    have back := readBytes_storeBytes m ptr (leBytes v.toNat 8)
    simp only [leBytes_length] at back
    simp only [readField, Field.fieldType, fieldBytes, back, leValue_leBytes, Field.stored]
    congr; apply BitVec.eq_of_toNat_eq; simp [Nat.mod_eq_of_lt v.isLt]
  | char s =>
    have stored : readBytes (storeBytes m ptr (fieldBytes c (.char s))) ptr c = fieldBytes c (.char s) := by
      simpa [fieldBytes_length, Field.fieldType, sizeOfFixed] using
        readBytes_storeBytes m ptr (fieldBytes c (.char s))
    have cut : (fieldBytes c (.char s)).takeWhile (· != 0) = (s.take c).takeWhile (· != 0) :=
      takeWhile_append_zeros _ _
    have short : ((s.take c).takeWhile (· != 0)).length ≤ c :=
      (List.takeWhile_prefix _).length_le.trans (by simp)
    simp only [readField, Field.fieldType, Field.stored, cstrLen_eq, Field.char.injEq]
    rw [stored, cut, readBytes_take _ short, stored, eq_comm, ← List.prefix_iff_eq_take]
    exact (List.takeWhile_prefix _).trans (List.prefix_append _ _)

theorem readField_fieldType (m : Mem) (ptr : Nat) (ty : FieldType) : (readField c m ptr ty).fieldType = ty := by
  cases ty <;> rfl

theorem readFields_tupleBytes (data : Nat) (types : List FieldType) :
    ∀ (off : Nat) (t : Tuple) (m : Mem), t.map Field.fieldType = types →
      readFields c (storeBytes m (data + off) (tupleBytes c t)) data types (fieldOffsets c off types) =
        t.map (Field.stored c) := by
  induction types with
  | nil => intro off t m typed; cases List.map_eq_nil_iff.mp typed; rfl
  | cons ty types ih =>
    intro off t m typed
    obtain ⟨f, fields, rfl, rfl, rest⟩ := List.map_eq_cons_iff.mp typed
    have tail := ih (off + sizeOfFixed c f.fieldType) fields (storeBytes m (data + off) (fieldBytes c f)) rest
    rw [show data + (off + sizeOfFixed c f.fieldType) = data + off + (fieldBytes c f).length by
      rw [fieldBytes_length]; omega] at tail
    simp only [tupleBytes, List.map_cons, List.flatten_cons, storeBytes_append, fieldOffsets, readFields] at tail ⊢
    rw [tail, readField_congr _ fun j lt => storeBytes_outside _ (by rw [← fieldBytes_length] at lt; omega),
      readField_fieldBytes]

theorem fieldBytes_at (data : Nat) (types : List FieldType) :
    ∀ (off : Nat) (t : Tuple) (m : Mem), t.map Field.fieldType = types →
      (types.zip (fieldOffsets c off types)).map (fun (ty, o) =>
        readBytes (storeBytes m (data + off) (tupleBytes c t)) (data + o) (sizeOfFixed c ty)) =
          t.map (fieldBytes c) := by
  induction types with
  | nil => intro off t m typed; cases List.map_eq_nil_iff.mp typed; rfl
  | cons ty types ih =>
    intro off t m typed
    obtain ⟨f, fields, rfl, rfl, rest⟩ := List.map_eq_cons_iff.mp typed
    have tail := ih (off + sizeOfFixed c f.fieldType) fields (storeBytes m (data + off) (fieldBytes c f)) rest
    rw [show data + (off + sizeOfFixed c f.fieldType) = data + off + (fieldBytes c f).length by
      rw [fieldBytes_length]; omega] at tail
    simp only [tupleBytes, List.map_cons, List.flatten_cons, storeBytes_append, fieldOffsets, List.zip_cons_cons]
      at tail ⊢
    rw [tail, ← fieldBytes_length, readBytes_congr (storeBytes m (data + off) (fieldBytes c f))
      fun j lt => storeBytes_outside _ (by omega), readBytes_storeBytes]

theorem fieldBytes_readField (m : Mem) (ptr : Nat) (ty : FieldType)
    (padded : ty = .char → ∀ j j', j' ≤ j → j < c → m (ptr + j') = 0 → m (ptr + j) = 0) :
    fieldBytes c (readField c m ptr ty) = readBytes m ptr (sizeOfFixed c ty) := by
  cases ty with
  | int =>
    have fits := leValue_lt (readBytes m ptr 4)
    have back := leBytes_leValue (readBytes m ptr 4)
    rw [readBytes_length] at fits back
    rw [readField, fieldBytes, BitVec.toNat_ofNat, Nat.mod_eq_of_lt (by simpa using fits), sizeOfFixed, back]
  | double =>
    have fits := leValue_lt (readBytes m ptr 8)
    have back := leBytes_leValue (readBytes m ptr 8)
    rw [readBytes_length] at fits back
    rw [readField, fieldBytes, BitVec.toNat_ofNat, Nat.mod_eq_of_lt (by simpa using fits), sizeOfFixed, back]
  | char =>
    have le := cstrLen_le m ptr c
    have zeros : readBytes m (ptr + cstrLen m ptr c) (c - cstrLen m ptr c) =
        List.replicate (c - cstrLen m ptr c) 0 := by
      apply List.ext_getElem (by simp)
      intro j inside _
      simp only [readBytes_length] at inside
      have nul := cstrLen_stops m ptr c (by omega)
      simpa [readBytes, Nat.add_assoc] using padded rfl _ _ (Nat.le_add_right _ j) (by omega) nul
    rw [sizeOfFixed, ← Nat.add_sub_cancel' le, readBytes_add, zeros, Nat.add_sub_cancel' le]
    simp [readField, fieldBytes, List.take_of_length_le (l := readBytes m ptr (cstrLen m ptr c)) (by simpa using le)]

theorem tupleBytes_readFields (data : Nat) (types : List FieldType) :
    ∀ (off : Nat) (m : Mem),
      (∀ o, (FieldType.char, o) ∈ types.zip (fieldOffsets c off types) →
        ∀ j j', j' ≤ j → j < c → m (data + o + j') = 0 → m (data + o + j) = 0) →
      tupleBytes c (readFields c m data types (fieldOffsets c off types)) =
        readBytes m (data + off) (types.map (sizeOfFixed c)).sum := by
  induction types with
  | nil => intro off m _; rfl
  | cons ty types ih =>
    intro off m padded
    have head := fieldBytes_readField m (data + off) ty fun isChar => by
      subst isChar; exact padded off (List.mem_cons_self _ _)
    have tail := ih (off + sizeOfFixed c ty) m fun o member => padded o (List.mem_cons_of_mem _ member)
    simp only [fieldOffsets, readFields, tupleBytes, List.map_cons, List.flatten_cons, List.sum_cons,
      List.zip_cons_cons] at tail ⊢
    rw [head, tail, readBytes_add, Nat.add_assoc]

theorem readFields_fieldType (m : Mem) (data : Nat) (types : List FieldType) (off : Nat) :
    (readFields c m data types (fieldOffsets c off types)).map Field.fieldType = types := by
  induction types generalizing off with
  | nil => rfl
  | cons ty types ih => simp [fieldOffsets, readFields, readField_fieldType, ih]

theorem readFields_congr {m m' : Mem} (data data' : Nat) (types : List FieldType) :
    ∀ off : Nat, (∀ a < (types.map (sizeOfFixed c)).sum, m' (data' + off + a) = m (data + off + a)) →
      readFields c m' data' types (fieldOffsets c off types) = readFields c m data types (fieldOffsets c off types) := by
  induction types with
  | nil => intro off _; rfl
  | cons ty types ih =>
    intro off same
    simp only [List.map_cons, List.sum_cons] at same
    simp only [fieldOffsets, readFields]
    rw [readField_congr ty fun j lt => same j (by omega),
      ih (off + sizeOfFixed c ty) fun a lt => by simpa [Nat.add_assoc] using same (sizeOfFixed c ty + a) (by omega)]

theorem deserialize_congr (td : TupleDesc c) {m m' : Mem} {data data' : Nat}
    (same : ∀ a < td.length, m' (data' + a) = m (data + a)) : td.deserialize m' data' = td.deserialize m data :=
  readFields_congr data data' td.types 0 (by simpa using same)

theorem tupleBytes_length_of_compatible {td : TupleDesc c} {t : Tuple} (compatible : td.compatible t) :
    (tupleBytes c t).length = td.length := by
  rw [tupleBytes_length, (compatible_iff td t).mp compatible]; rfl

theorem deserialize_storeBytes {td : TupleDesc c} {t : Tuple} (compatible : td.compatible t) (m : Mem)
    (data : Nat) : td.deserialize (storeBytes m data (tupleBytes c t)) data = t.map (Field.stored c) := by
  simpa using readFields_tupleBytes data td.types 0 t m ((compatible_iff td t).mp compatible)

-- TupleDesc::serialize and TupleDesc::deserialize: the layout, both round trips,
-- and the compatibility check that runs before any byte is written.
theorem serialize_layout_roundtrip (td : TupleDesc c) (m : Mem) (data : Nat) :
    (∀ t : Tuple, td.compatible t →
      ∃ m', td.serialize data t m = .ok () m' ∧
        (∀ i, i < data ∨ data + td.length ≤ i → m' i = m i) ∧
        (td.types.zip td.offsets).map (fun (ty, off) => readBytes m' (data + off) (sizeOfFixed c ty)) =
          t.map (fieldBytes c) ∧
        td.deserialize m' data = t.map (Field.stored c)) ∧
    (td.NulPadded m data → td.serialize data (td.deserialize m data) m = .ok () m) ∧
    (∀ t : Tuple, td.compatible t = false →
      td.serialize data t m = .error "TupleDesc::serialize: tuple incompatible with schema" m) := by
  refine ⟨fun t compatible => ?_, fun padded => ?_, fun t incompatible => ?_⟩
  · have length := tupleBytes_length_of_compatible compatible
    refine ⟨_, serialize_compatible td data t m compatible, fun i out => storeBytes_outside m (by omega), ?_,
      deserialize_storeBytes compatible m data⟩
    simpa using fieldBytes_at data td.types 0 t m ((compatible_iff td t).mp compatible)
  · have typed := readFields_fieldType (c := c) m data td.types 0
    rw [TupleDesc.deserialize, TupleDesc.offsets, serialize_compatible td data _ m ((compatible_iff td _).mpr typed),
      tupleBytes_readFields data td.types 0 m padded, Nat.add_zero, storeBytes_readBytes]
  · simp [TupleDesc.serialize, incompatible]

example : (Field.char [97, 0, 98, 99]).stored 3 = .char [97] := by decide

end Codec

-- `td.deserialize(td.serialize(t))`: a record as a scan returns it.
def roundTrip {c : Nat} (td : TupleDesc c) (t : Tuple) : Tuple :=
  td.deserialize (resultState (td.serialize 0 t zeroPage)) 0

theorem roundTrip_eq {c : Nat} {td : TupleDesc c} {t : Tuple} (compatible : td.compatible t) :
    roundTrip td t = t.map (Field.stored c) := by
  rw [roundTrip, serialize_compatible td 0 t zeroPage compatible]
  exact deserialize_storeBytes compatible zeroPage 0

end PagedDb
