import A11.Ascii
import A11.DataTypes
import A11.SortedEntries

/-! JSON values as the codecs build them and take them apart. -/
namespace A11
open List Entries

/-- A value of the JSON library. Objects list their entries by increasing key; a
floating-point number is its width in bytes and its bits. -/
inductive Json
  | null
  | bool (value : Bool)
  | integer (value : ℤ)
  | unsigned (value : ℕ)
  | real (width bits : ℕ)
  | string (value : Bytes)
  | binary (subtype : Option ℕ) (value : Bytes)
  | array (items : List Json)
  | object (entries : List (Bytes × Json))

namespace Json

/-- The key of a field. -/
def key (name : String) : Bytes := Ascii.ofString name

/-- `value[key] = field`, on an object. -/
def set (value : Json) (name : String) (field : Json) : Json :=
  match value with
  | object entries => object (put (key name) field entries)
  | other => other

/-- The field of an object, if it is there. -/
def getOptional (value : Json) (name : String) : Option Json :=
  match value with
  | object entries => find (key name) entries
  | _ => none

def isObject : Json → Bool
  | object _ => true
  | _ => false

def isNull : Json → Bool
  | null => true
  | _ => false

/-- The fields of an object, set one after another. -/
def ofEntries (entries : List (Bytes × Json)) : Json :=
  object (entries.foldl (fun all e => put e.1 e.2 all) [])

theorem ofEntries_sorted {entries : List (Bytes × Json)} (h : Sorted entries) :
    ofEntries entries = object entries := by
  rw [ofEntries,foldl_put_sorted (by simpa using h),nil_append]

/-- Sets a field that has a value. -/
def setOptional (value : Json) (name : String) : Option Json → Json
  | some field => value.set name field
  | none => value

section Fields

variable {value : Json} {name other : String} {field : Json}

@[simp] theorem isObject_object {entries : List (Bytes × Json)} :
    (object entries).isObject = true := by simp [isObject]

@[simp] theorem isObject_set : (value.set name field).isObject = value.isObject := by
  cases value <;> rfl

@[simp] theorem isObject_setOptional {field : Option Json} :
    (value.setOptional name field).isObject = value.isObject := by
  cases field with
  | none => rfl
  | some field => exact isObject_set

@[simp] theorem getOptional_set (h : value.isObject = true) :
    (value.set other field).getOptional name =
      if key name = key other then some field else value.getOptional name := by
  cases value with
  | object entries =>
    split_ifs with heq
    · simp only [set,getOptional,heq,find_put_self]
    · exact find_put_ne heq _ _
  | _ => simp [isObject] at h

@[simp] theorem getOptional_setOptional {field : Option Json} (h : value.isObject = true) :
    (value.setOptional other field).getOptional name =
      if key name = key other then field.or (value.getOptional name)
      else value.getOptional name := by
  cases field with
  | none => simp [setOptional]
  | some field => simp [setOptional,getOptional_set h]

@[simp] theorem getOptional_empty : (object []).getOptional name = none := rfl

end Fields

/-- An object whose fields are set one after another, those without a value left out. -/
def fields (all : List (String × Option Json)) : Json :=
  all.foldl (fun value f => value.setOptional f.1 f.2) (object [])

section FieldLists

variable {all : List (String × Option Json)} {value : Json} {name : String}

theorem isObject_foldl :
    (all.foldl (fun value f => value.setOptional f.1 f.2) value).isObject = value.isObject := by
  induction all generalizing value with
  | nil => rfl
  | cons f all ih => rw [foldl_cons,ih,isObject_setOptional]

@[simp] theorem isObject_fields : (fields all).isObject = true := isObject_foldl

theorem getOptional_foldl_of_notMem (hval : value.isObject = true)
    (h : key name ∉ all.map fun f => key f.1) :
    (all.foldl (fun value f => value.setOptional f.1 f.2) value).getOptional name =
      value.getOptional name := by
  induction all generalizing value with
  | nil => rfl
  | cons f all ih =>
    rw [map_cons,mem_cons,not_or] at h
    rw [foldl_cons,ih (by rwa [isObject_setOptional]) h.2,getOptional_setOptional hval,if_neg h.1]

theorem getOptional_foldl_of_mem {field : Option Json} (hval : value.isObject = true)
    (habs : value.getOptional name = none) (hnd : (all.map fun f => key f.1).Nodup)
    (hmem : (name,field) ∈ all) :
    (all.foldl (fun value f => value.setOptional f.1 f.2) value).getOptional name = field := by
  induction all generalizing value with
  | nil => simp at hmem
  | cons f all ih =>
    rw [map_cons,nodup_cons] at hnd
    have hval' : (value.setOptional f.1 f.2).isObject = true := by rwa [isObject_setOptional]
    rcases mem_cons.mp hmem with rfl | hmem
    · simp [getOptional_foldl_of_notMem hval' hnd.1,hval,habs]
    · have hne : key name ≠ key f.1 := by
        intro heq
        exact hnd.1 (heq ▸ mem_map_of_mem (f := fun f => key f.1) hmem)
      exact ih hval' (by rwa [getOptional_setOptional hval,if_neg hne]) hnd.2 hmem

/-- The fields of an object read back when their names are different. -/
theorem getOptional_fields {object : Json} (hobj : fields all = object)
    (hnd : (all.map fun f => key f.1).Nodup) :
    all.foldr (fun f rest => object.getOptional f.1 = f.2 ∧ rest) True := by
  have h : ∀ f ∈ all, object.getOptional f.1 = f.2 := fun f hf =>
    hobj ▸ getOptional_foldl_of_mem rfl rfl hnd hf
  clear hobj hnd
  induction all with
  | nil => trivial
  | cons f all ih => exact ⟨h f (by simp),ih fun g hg => h g (by simp [hg])⟩

theorem getOptional_fields_of_notMem {names : List String} (h : key name ∉ names.map key)
    (hnames : all.map Prod.fst = names) : (fields all).getOptional name = none := by
  apply getOptional_foldl_of_notMem rfl
  rw [← hnames,map_map] at h
  exact h

end FieldLists

/-- A string field, empty when it is not there. -/
def getString (object : Json) (name context : String) : StatusOr Bytes :=
  match object.getOptional name with
  | none => .ok []
  | some (string value) => .ok value
  | some _ => .error (.invalidArgument (context ++ "." ++ name ++ " must be a string"))

theorem getString_of_some {object : Json} {name : String} {value : Bytes} (context : String)
    (h : object.getOptional name = some (string value)) :
    object.getString name context = .ok value := by
  rw [getString,h]

end Json

/-- Decodes the items of a list, in order. -/
def decodeAll {α β : Type} (decode : α → StatusOr β) : List α → StatusOr (List β)
  | [] => .ok []
  | x::xs => do
    let y ← decode x
    let ys ← decodeAll decode xs
    return y::ys

theorem decodeAll_map {α β : Type} {decode : α → StatusOr β} {encode : β → α} {ys : List β}
    (h : ∀ y ∈ ys, decode (encode y) = .ok y) : decodeAll decode (ys.map encode) = .ok ys := by
  induction ys with
  | nil => rfl
  | cons y ys ih =>
    rw [map_cons,decodeAll,h y (by simp),ih fun z hz => h z (by simp [hz])]
    rfl

/-- The entries of a map with their values carried over keep their order. -/
theorem ByteMap.sorted_map {β : Type} (m : ByteMap) (f : Bytes → β) :
    Sorted (m.entries.map fun e => (e.1,f e.2)) := by
  rw [Sorted,pairwise_map]
  exact m.sorted

theorem ByteMap.sorted_entries (m : ByteMap) : Sorted (ByteMap.empty.entries++m.entries) := m.sorted

/-- Inserts an entry whose key has none. -/
def ByteMap.emplace (m : ByteMap) (key value : Bytes) : ByteMap :=
  ⟨Entries.emplace key value m.entries,Entries.sorted_emplace m.sorted key value⟩

theorem ByteMap.ext {m n : ByteMap} (h : m.entries = n.entries) : m = n := by
  cases m
  cases n
  simpa using h

/-- Entries that come by increasing key are kept as they come. -/
theorem ByteMap.foldl_emplace {m : ByteMap} {entries : List (Bytes × Bytes)}
    (h : Sorted (m.entries++entries)) :
    (entries.foldl (fun all e => all.emplace e.1 e.2) m).entries = m.entries++entries := by
  induction entries generalizing m with
  | nil => simp
  | cons e entries ih =>
    have hlt : ∀ b ∈ m.entries, b.1 < e.1 := fun b hb =>
      (pairwise_append.mp h).2.2 b hb e (by simp)
    have hent : (m.emplace e.1 e.2).entries = m.entries++[e] := emplace_of_lt hlt _
    have hnext : Sorted ((m.emplace e.1 e.2).entries++entries) := by
      rw [hent]
      simpa using h
    rw [foldl_cons,ih hnext,hent]
    simp

end A11
