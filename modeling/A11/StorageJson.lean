import A11.Json

/-! The storage identity of a node reference as a JSON value. -/
namespace A11

/-! ### Encoding -/

def StorageCredentials.jsonValue (c : StorageCredentials) : Json :=
  ((Json.object []).set "scheme" (.string c.scheme)).set "fields"
    (.ofEntries (c.fields.entries.map fun e => (e.1,.string e.2)))

def StorageService.jsonValue (s : StorageService) : Json :=
  (((Json.object []).set "role" (.string s.role)).set "endpoint" (.string s.endpoint)).setOptional
    "credentials" (s.credentials.map StorageCredentials.jsonValue)

def StorageIdentity.jsonValue (s : StorageIdentity) : Json :=
  (((Json.object []).set "id" (.string s.id)).setOptional "credentials"
    (s.credentials.map StorageCredentials.jsonValue)).setOptional "services"
    (if s.services = [] then none else some (.array (s.services.map StorageService.jsonValue)))

def storageIdentityToJsonValue (s : StorageIdentity) : StatusOr Json := do
  s.validate
  return s.jsonValue

/-! ### Decoding -/

def credentialFields : List (Bytes × Json) → ByteMap → StatusOr ByteMap
  | [], fields => .ok fields
  | (key,.string value)::entries, fields => credentialFields entries (fields.emplace key value)
  | _::_, _ => .error (.invalidArgument "Credential fields must be strings")

def storageCredentialsFromJsonValue (value : Json) : StatusOr StorageCredentials :=
  if value.isObject then do
    let scheme ← value.getString "scheme" "StorageCredentials"
    let fields ← match value.getOptional "fields" with
      | none => .ok .empty
      | some (.object entries) => credentialFields entries .empty
      | some _ => .error (.invalidArgument "Credential fields must be an object")
    return ⟨scheme,fields⟩
  else .error (.invalidArgument "Storage credentials must be an object")

/-- Credentials that may be missing or null. -/
def optionalCredentials (value : Json) : StatusOr (Option StorageCredentials) :=
  match value.getOptional "credentials" with
  | none => .ok none
  | some .null => .ok none
  | some credentials => do
    let credentials ← storageCredentialsFromJsonValue credentials
    return some credentials

def storageServiceFromJsonValue (value : Json) : StatusOr StorageService :=
  if value.isObject then do
    let role ← value.getString "role" "StorageService"
    let endpoint ← value.getString "endpoint" "StorageService"
    let credentials ← optionalCredentials value
    return ⟨role,endpoint,credentials⟩
  else .error (.invalidArgument "Storage service must be an object")

def storageIdentityFromJsonValue (value : Json) : StatusOr StorageIdentity :=
  if value.isObject then do
    let id ← value.getString "id" "StorageIdentity"
    let credentials ← optionalCredentials value
    let services ← match value.getOptional "services" with
      | none => .ok []
      | some (.array items) => decodeAll storageServiceFromJsonValue items
      | some _ => .error (.invalidArgument "Storage services must be an array")
    let result : StorageIdentity := ⟨id,credentials,services⟩
    result.validate
    return result
  else .error (.invalidArgument "Storage identity must be an object")

/-! ### Round trip -/

theorem credentialFields_map {entries : List (Bytes × Bytes)} (fields : ByteMap) :
    credentialFields (entries.map fun e => (e.1,.string e.2)) fields =
      .ok (entries.foldl (fun all e => all.emplace e.1 e.2) fields) := by
  induction entries generalizing fields with
  | nil => rfl
  | cons e entries ih =>
    rw [List.map_cons,credentialFields,ih]
    rfl

variable (c : StorageCredentials)

theorem StorageCredentials.jsonValue_scheme :
    c.jsonValue.getOptional "scheme" = some (.string c.scheme) := by
  simp +decide [jsonValue]

theorem StorageCredentials.jsonValue_fields :
    c.jsonValue.getOptional "fields" =
      some (.object (c.fields.entries.map fun e => (e.1,.string e.2))) := by
  simp [jsonValue,Json.ofEntries_sorted (c.fields.sorted_map _)]

theorem storageCredentials_jsonValue :
    storageCredentialsFromJsonValue c.jsonValue = .ok c := by
  have hdec : c.fields.entries.foldl (fun all e => all.emplace e.1 e.2) .empty = c.fields :=
    ByteMap.ext (ByteMap.foldl_emplace c.fields.sorted_entries)
  rw [storageCredentialsFromJsonValue,if_pos (by simp [StorageCredentials.jsonValue]),
    Json.getString_of_some _ c.jsonValue_scheme,c.jsonValue_fields]
  simp [credentialFields_map,hdec]

theorem optionalCredentials_of_getOptional {value : Json} {credentials : Option StorageCredentials}
    (h : value.getOptional "credentials" = credentials.map StorageCredentials.jsonValue) :
    optionalCredentials value = .ok credentials := by
  cases credentials with
  | none => rw [optionalCredentials,h]; rfl
  | some c =>
    have hobject : ∃ entries, c.jsonValue = .object entries := ⟨_,rfl⟩
    obtain ⟨entries,hentries⟩ := hobject
    have hdecoded := storageCredentials_jsonValue c
    rw [optionalCredentials,h,Option.map_some,hentries]
    rw [hentries] at hdecoded
    simp [hdecoded]

section

variable (s : StorageService)

theorem StorageService.jsonValue_role : s.jsonValue.getOptional "role" = some (.string s.role) := by
  simp +decide [jsonValue]

theorem StorageService.jsonValue_endpoint :
    s.jsonValue.getOptional "endpoint" = some (.string s.endpoint) := by
  simp +decide [jsonValue]

theorem StorageService.jsonValue_credentials :
    s.jsonValue.getOptional "credentials" = s.credentials.map StorageCredentials.jsonValue := by
  simp +decide [jsonValue]

theorem storageService_jsonValue : storageServiceFromJsonValue s.jsonValue = .ok s := by
  rw [storageServiceFromJsonValue,if_pos (by simp [StorageService.jsonValue]),
    Json.getString_of_some _ s.jsonValue_role,Json.getString_of_some _ s.jsonValue_endpoint,
    optionalCredentials_of_getOptional s.jsonValue_credentials]
  rfl

end

variable (s : StorageIdentity)

theorem StorageIdentity.jsonValue_isNull : s.jsonValue.isNull = false := by
  have hobj : s.jsonValue.isObject = true := by simp [StorageIdentity.jsonValue]
  cases hval : s.jsonValue <;> simp_all [Json.isObject,Json.isNull]

theorem StorageIdentity.jsonValue_id :
    s.jsonValue.getOptional "id" = some (.string s.id) := by
  simp +decide [jsonValue]

theorem StorageIdentity.jsonValue_credentials :
    s.jsonValue.getOptional "credentials" = s.credentials.map StorageCredentials.jsonValue := by
  simp +decide [jsonValue]

theorem StorageIdentity.jsonValue_services :
    s.jsonValue.getOptional "services" = if s.services = [] then none
      else some (.array (s.services.map StorageService.jsonValue)) := by
  simp +decide [jsonValue]

theorem storageIdentity_jsonValue {s : StorageIdentity} (h : s.validate = .ok ()) :
    storageIdentityFromJsonValue s.jsonValue = .ok s := by
  rw [storageIdentityFromJsonValue,if_pos (by simp [StorageIdentity.jsonValue]),
    Json.getString_of_some _ s.jsonValue_id,
    optionalCredentials_of_getOptional s.jsonValue_credentials,s.jsonValue_services]
  by_cases hemp : s.services = []
  · simp [← hemp,h]
  · simp [if_neg hemp,decodeAll_map fun service _ => storageService_jsonValue service,h]

end A11
