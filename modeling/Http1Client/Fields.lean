/-
# Header fields

A field has a name, a token in lower case, and a value. A header section is a
list of names in the order of their first appearance, each with its values in
the order of their arrival (`Fields`), so that two sections that are equal
print alike.

`append` adds a value behind those the name has; `insert` puts a single value
in the name's place; `remove` takes a name out and lets the last name take its
place.

Key definitions: `FieldName`, `FieldValue`, `Fields`, `Fields.append`,
`Fields.insert`, `Fields.remove`, `Fields.values`, `Fields.toList`,
`Fields.ofList`.
Key theorems: `Fields.values_append_self`, `Fields.values_append_ne`,
`Fields.values_insert_self`, `Fields.values_insert_ne`.
-/
import Http1Client.Bytes
import Http1Client.Numeral

namespace Http1Client

/-- The name of a field: a token in lower case. -/
structure FieldName where
  bytes : Bytes
  ne_nil : bytes ≠ []
  isToken : ∀ b ∈ bytes, Bytes.isTokenByte b = true ∧ Bytes.lower b = b

namespace FieldName

instance : DecidableEq FieldName := fun a b =>
  if h : a.bytes = b.bytes then
    isTrue (by cases a; cases b; simp_all)
  else isFalse (fun e => h (e ▸ rfl))

/-- Letter case does not take a byte out of the token class. -/
theorem isTokenByte_lower (b : UInt8) (h : Bytes.isTokenByte b = true) :
    Bytes.isTokenByte (Bytes.lower b) = true := by
  unfold Bytes.lower
  split
  · next hu =>
    have ha : Bytes.isAlpha (b + 32) = true := by
      simp only [Bool.and_eq_true, decide_eq_true_eq, UInt8.le_iff_toNat_le] at hu
      simp only [Bytes.isAlpha, Bool.or_eq_true, Bool.and_eq_true, decide_eq_true_eq,
        UInt8.le_iff_toNat_le, UInt8.toNat_add]
      simp at *
      omega
    simp [Bytes.isTokenByte, ha]
  · exact h

/-- The longest name a field may be given by a caller. -/
def maxLength : Nat := 65535

/-- The name that a token is, whatever the case of its letters. -/
def ofToken (b : Bytes) (h0 : b ≠ []) (h : ∀ x ∈ b, Bytes.isTokenByte x = true) : FieldName where
  bytes := b.map Bytes.lower
  ne_nil := by simpa using h0
  isToken := by
    intro x hx
    obtain ⟨y, hy, rfl⟩ := List.mem_map.mp hx
    exact ⟨isTokenByte_lower y (h y hy), Bytes.lower_lower y⟩

/-- The name a caller gives, if it is one. -/
def ofBytes? (b : Bytes) : Option FieldName :=
  if h : b ≠ [] ∧ b.length ≤ maxLength ∧ b.all Bytes.isTokenByte = true then
    some (ofToken b h.1 (List.all_eq_true.mp h.2.2))
  else none

def host : FieldName := ofToken (Bytes.ofText "host") (by decide) (by decide +kernel)

def contentLength : FieldName :=
  ofToken (Bytes.ofText "content-length") (by decide) (by decide +kernel)

def transferEncoding : FieldName :=
  ofToken (Bytes.ofText "transfer-encoding") (by decide) (by decide +kernel)

def connection : FieldName := ofToken (Bytes.ofText "connection") (by decide) (by decide +kernel)

end FieldName

/-- The value of a field: tabs, spaces, printable ASCII and bytes outside ASCII. -/
structure FieldValue where
  bytes : Bytes
  isValue : ∀ b ∈ bytes, Bytes.isValueByte b = true

namespace FieldValue

instance : DecidableEq FieldValue := fun a b =>
  if h : a.bytes = b.bytes then
    isTrue (by cases a; cases b; simp_all)
  else isFalse (fun e => h (e ▸ rfl))

/-- The value a caller gives, if it is one. Nothing is trimmed. -/
def ofBytes? (b : Bytes) : Option FieldValue :=
  if h : b.all Bytes.isValueByte = true then some ⟨b, List.all_eq_true.mp h⟩ else none

/-- The value `chunked`. -/
def chunked : FieldValue := ⟨Bytes.ofText "chunked", by decide +kernel⟩

theorem isValueByte_digit {d : Nat} (h : d < 10) : Bytes.isValueByte (Numeral.digit d) = true := by
  match d, h with
  | 0, _ | 1, _ | 2, _ | 3, _ | 4, _ | 5, _ | 6, _ | 7, _ | 8, _ | 9, _ => decide

theorem isValueByte_of_mem_decimal (n : Nat) :
    ∀ b ∈ Numeral.decimal n, Bytes.isValueByte b = true := by
  induction n using Nat.strongRecOn with
  | ind n ih =>
    intro b hb
    rw [Numeral.decimal] at hb
    split at hb
    · next h =>
      rw [List.mem_singleton] at hb
      exact hb ▸ isValueByte_digit h
    · next h =>
      rcases List.mem_append.mp hb with hb | hb
      · exact ih (n / 10) (by omega) b hb
      · rw [List.mem_singleton] at hb
        exact hb ▸ isValueByte_digit (Nat.mod_lt n (by decide))

/-- The value that is a number. -/
def ofNat (n : Nat) : FieldValue := ⟨Numeral.decimal n, isValueByte_of_mem_decimal n⟩

/-- Does the value mention `word`, given in lower case, in any letter case? -/
def mentions (word : String) (v : FieldValue) : Bool :=
  Bytes.mentions (Bytes.ofText word) v.bytes

end FieldValue

/-- A header section: names in the order of their first appearance, each with
its values in the order of their arrival. -/
structure Fields where
  entries : List (FieldName × List FieldValue) := []
  deriving DecidableEq

namespace Fields

def isEmpty (f : Fields) : Bool := f.entries.isEmpty

/-- The values that the entries hold under a name. -/
def valuesOf (n : FieldName) : List (FieldName × List FieldValue) → List FieldValue
  | [] => []
  | e :: es => if e.1 = n then e.2 else valuesOf n es

/-- The values of a name, in the order of their arrival. -/
def values (f : Fields) (n : FieldName) : List FieldValue := valuesOf n f.entries

/-- Every field of the section, in its order. -/
def toList (f : Fields) : List (FieldName × FieldValue) :=
  f.entries.flatMap fun e => e.2.map fun v => (e.1, v)

/-- Changes the values of a name in its place, or gives it some behind all
other names. -/
def alter (n : FieldName) (change : List FieldValue → List FieldValue) :
    List (FieldName × List FieldValue) → List (FieldName × List FieldValue)
  | [] => [(n, change [])]
  | e :: es => if e.1 = n then (n, change e.2) :: es else e :: alter n change es

/-- Adds a value behind those that the name has. -/
def append (f : Fields) (n : FieldName) (v : FieldValue) : Fields :=
  ⟨alter n (· ++ [v]) f.entries⟩

/-- The section that fields make up in the order they are given. -/
def ofList (fs : List (FieldName × FieldValue)) : Fields :=
  fs.foldl (fun f x => f.append x.1 x.2) {}

/-- Makes `v` the only value of the name. A name that is there keeps its place. -/
def insert (f : Fields) (n : FieldName) (v : FieldValue) : Fields :=
  ⟨alter n (fun _ => [v]) f.entries⟩

/-- Takes the name out; the last name takes its place. -/
def removeEntry (n : FieldName) :
    List (FieldName × List FieldValue) → List (FieldName × List FieldValue)
  | [] => []
  | e :: es =>
    if e.1 = n then
      match es.getLast? with
      | some last => last :: es.dropLast
      | none => []
    else e :: removeEntry n es

/-- Takes the name and its values out; the last name takes its place. -/
def remove (f : Fields) (n : FieldName) : Fields := ⟨removeEntry n f.entries⟩

/-- Puts the names of `g` in: one that is there loses its values to those of
`g` and keeps its place, the others go behind. -/
def extend (f g : Fields) : Fields :=
  ⟨g.entries.foldl (fun es e => alter e.1 (fun _ => e.2) es) f.entries⟩

/-- Does any value of the name mention `word`, in any letter case? -/
def mention (f : Fields) (n : FieldName) (word : String) : Bool :=
  (f.values n).any (FieldValue.mentions word)

theorem valuesOf_alter_self (n : FieldName) (change : List FieldValue → List FieldValue) :
    ∀ es, valuesOf n (alter n change es) = change (valuesOf n es)
  | [] => by simp [alter, valuesOf]
  | e :: es => by
    by_cases h : e.1 = n
    · simp [alter, valuesOf, h]
    · simp [alter, valuesOf, h, valuesOf_alter_self n change es]

theorem valuesOf_alter_ne {n m : FieldName} (h : m ≠ n)
    (change : List FieldValue → List FieldValue) :
    ∀ es, valuesOf m (alter n change es) = valuesOf m es
  | [] => by simp [alter, valuesOf, h.symm]
  | e :: es => by
    by_cases he : e.1 = n
    · simp [alter, valuesOf, he, h.symm]
    · simp [alter, valuesOf, he, valuesOf_alter_ne h change es]

theorem values_append_self (f : Fields) (n : FieldName) (v : FieldValue) :
    (f.append n v).values n = f.values n ++ [v] :=
  valuesOf_alter_self n _ f.entries

theorem values_append_ne (f : Fields) {n m : FieldName} (h : m ≠ n) (v : FieldValue) :
    (f.append n v).values m = f.values m :=
  valuesOf_alter_ne h _ f.entries

theorem values_insert_self (f : Fields) (n : FieldName) (v : FieldValue) :
    (f.insert n v).values n = [v] :=
  valuesOf_alter_self n _ f.entries

theorem values_insert_ne (f : Fields) {n m : FieldName} (h : m ≠ n) (v : FieldValue) :
    (f.insert n v).values m = f.values m :=
  valuesOf_alter_ne h _ f.entries

end Fields
end Http1Client
