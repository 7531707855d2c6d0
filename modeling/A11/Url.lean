import A11.Ascii
import A11.DataTypes

/-! URLs as a connection needs them: parsing an absolute URL, and resolving a redirect
target against the URL it was received from. -/
namespace A11.Url

structure ParsedUrl where
  scheme : Bytes := []
  host : Bytes := []
  port : UInt16 := 0
  path : Bytes := []
  query : Bytes := []
  deriving DecidableEq

/-- The byte values of the characters the parser looks for. -/
def slash : UInt8 := 47
def question : UInt8 := 63
def hash : UInt8 := 35
def colon : UInt8 := 58

/-- `"://"` -/
def schemeEnd : Bytes := [colon,slash,slash]

def http : Bytes := [104,116,116,112]
def https : Bytes := [104,116,116,112,115]
def ws : Bytes := [119,115]
def wss : Bytes := [119,115,115]

def defaultPortForScheme (scheme : Bytes) : UInt16 :=
  if scheme = http ∨ scheme = ws then 80
  else if scheme = https ∨ scheme = wss then 443
  else 0

/-- Host and port text of an authority. -/
def splitAuthority (authority : Bytes) : StatusOr (Bytes × Bytes) :=
  if authority.head? = some 91 then
    match Ascii.cutAt 93 authority with
    | none => .error (.invalidArgument "URL has an unterminated IPv6 host")
    | some (opened,rest) => match rest with
      | [] => .ok (opened.tail,[])
      | c::portText =>
        if c = colon then .ok (opened.tail,portText)
        else .error (.invalidArgument "URL has trailing characters after its IPv6 host")
  else match Ascii.cutAtLast colon authority with
    | none => .ok (authority,[])
    | some (host,portText) => .ok (host,portText)

/-- Host and port of an authority, with the given port when it names none. -/
def parseAuthority (authority : Bytes) (port : UInt16) : StatusOr (Bytes × UInt16) :=
  if authority = [] then .error (.invalidArgument "URL has no host")
  else do
    let (host,portText) ← splitAuthority authority
    if host = [] then .error (.invalidArgument "URL has no host")
    else if portText = [] then .ok (host,port)
    else match Ascii.unsigned32 portText with
      | none => .error (.invalidArgument ("URL has an invalid port: " ++ asciiText portText))
      | some parsed =>
        if parsed = 0 ∨ 65535 < parsed then
          .error (.invalidArgument ("URL has an invalid port: " ++ asciiText portText))
        else .ok (host,UInt16.ofNat parsed)

/-- Path and query, the fragment dropped. -/
def splitPathParts (rest : Bytes) : Bytes × Bytes :=
  let kept := rest.takeWhile (· ≠ hash)
  match Ascii.cutAt question kept with
  | none => (kept,[])
  | some (path,query) => (path,query)

def directoryOf (path : Bytes) : Bytes :=
  match Ascii.cutAtLast slash path with
  | none => [slash]
  | some (directory,_) => directory++[slash]

def isAuthorityEnd (c : UInt8) : Bool := c == slash || c == question || c == hash

def parseUrl (url : Bytes) : StatusOr ParsedUrl :=
  match Ascii.find schemeEnd url with
  | none => .error (.invalidArgument
      ("URL must be absolute, with a scheme and \"://\": " ++ asciiText url))
  | some separator =>
    let scheme := Ascii.lower (url.take separator)
    if defaultPortForScheme scheme = 0 then
      .error (.invalidArgument
        ("URL scheme must be http, https, ws, or wss, got: " ++ asciiText scheme))
    else do
      let rest := url.drop (separator+3)
      let authority := rest.takeWhile (!isAuthorityEnd ·)
      let tail := rest.dropWhile (!isAuthorityEnd ·)
      let (host,port) ← parseAuthority authority (defaultPortForScheme scheme)
      match tail with
      | [] => return { scheme,host,port }
      | c::_ =>
        let (path,query) := splitPathParts tail
        return { scheme,host,port,path := if c = slash then path else [slash],query }

def resolveReference (base : ParsedUrl) (reference : Bytes) : StatusOr ParsedUrl :=
  if reference = [] then .error (.invalidArgument "URL reference is empty")
  else if schemeEnd <:+: reference then parseUrl reference
  else if [slash,slash] <+: reference then parseUrl (base.scheme++colon::reference)
  else if [question] <+: reference then
    .ok { base with query := reference.tail.takeWhile (· ≠ hash) }
  else
    let (path,query) := splitPathParts reference
    if path = [] then
      .error (.invalidArgument ("URL reference has no target: " ++ asciiText reference))
    else .ok { base with
      path := if [slash] <+: path then path else directoryOf base.path++path
      query }

/-! ### Same origin -/

def SameOrigin (a b : ParsedUrl) : Prop := a.scheme = b.scheme ∧ a.host = b.host ∧ a.port = b.port

/-- `/path` and `?query`, the references that name no other host. -/
def Local (reference : Bytes) : Prop :=
  ([slash] <+: reference ∧ ¬[slash,slash] <+: reference) ∨ [question] <+: reference

theorem defaultPortForScheme_of_head {scheme : Bytes} {c : UInt8} (hhead : ∀ d ∈ scheme.head?, d = c)
    (hh : c ≠ 104) (hw : c ≠ 119) : defaultPortForScheme scheme = 0 := by
  have hscheme : scheme ≠ http ∧ scheme ≠ ws ∧ scheme ≠ https ∧ scheme ≠ wss := by
    refine ⟨?_,?_,?_,?_⟩ <;> rintro rfl
    · exact hh (hhead 104 rfl).symm
    · exact hw (hhead 119 rfl).symm
    · exact hh (hhead 104 rfl).symm
    · exact hw (hhead 119 rfl).symm
  simp [defaultPortForScheme,hscheme]

/-- A text that begins with a slash or a question mark is not an absolute URL. -/
theorem parseUrl_of_local {c : UInt8} (rest : Bytes) (hc : c = slash ∨ c = question) :
    ∃ message, parseUrl (c::rest) = .error (.invalidArgument message) := by
  unfold parseUrl
  cases hfind : Ascii.find schemeEnd (c::rest) with
  | none => exact ⟨_,rfl⟩
  | some separator =>
    have hport : defaultPortForScheme (Ascii.lower ((c::rest).take separator)) = 0 := by
      refine defaultPortForScheme_of_head (c := Ascii.lowerByte c) ?_ ?_ ?_
      · intro d hd
        cases separator with
        | zero => simp [Ascii.lower] at hd
        | succ n => simpa [Ascii.lower] using hd.symm
      · rcases hc with rfl | rfl <;> decide
      · rcases hc with rfl | rfl <;> decide
    dsimp only
    rw [if_pos hport]
    exact ⟨_,rfl⟩

theorem splitPathParts_slash (rest : Bytes) :
    ∃ path query, splitPathParts (slash::rest) = (slash::path,query) := by
  have hkept : (slash::rest).takeWhile (· ≠ hash) = slash::rest.takeWhile (· ≠ hash) := by
    rw [List.takeWhile_cons_of_pos (by decide)]
  simp only [splitPathParts,hkept]
  rw [Ascii.cutAt,List.idxOf?_cons]
  cases (rest.takeWhile (· ≠ hash)).idxOf? question with
  | none => exact ⟨_,[],rfl⟩
  | some i => exact ⟨_,_,rfl⟩

/-- A local reference is resolved on the origin of its base exactly when it contains no
`://`, whatever else it contains. -/
theorem resolveReference_sameOrigin_iff (base : ParsedUrl) {reference : Bytes}
    (hlocal : Local reference) :
    (∃ resolved, resolveReference base reference = .ok resolved ∧ SameOrigin resolved base) ↔
      ¬schemeEnd <:+: reference := by
  obtain ⟨c,rest,rfl,hc⟩ : ∃ c rest, reference = c::rest ∧ (c = slash ∨ c = question) := by
    rcases hlocal with ⟨⟨rest,rfl⟩,-⟩ | ⟨rest,rfl⟩
    · exact ⟨slash,rest,rfl,.inl rfl⟩
    · exact ⟨question,rest,rfl,.inr rfl⟩
  have hhost : ¬[slash,slash] <+: c::rest := by
    rcases hlocal with ⟨-,hhost⟩ | hquery
    · exact hhost
    · rintro ⟨_,htail⟩
      obtain ⟨_,htail'⟩ := hquery
      simp [← htail,slash,question] at htail'
  unfold resolveReference
  rw [if_neg (List.cons_ne_nil c rest)]
  constructor
  · rintro ⟨resolved,hres,-⟩ hend
    obtain ⟨_,herr⟩ := parseUrl_of_local rest hc
    rw [if_pos hend,herr] at hres
    cases hres
  · intro hend
    rw [if_neg hend,if_neg hhost]
    rcases hc with rfl | rfl
    · obtain ⟨_,_,hparts⟩ := splitPathParts_slash rest
      rw [hparts]
      exact ⟨_,rfl,rfl,rfl,rfl⟩
    · exact ⟨_,rfl,rfl,rfl,rfl⟩

/-- `/?https://a` on `http://h/`. -/
def embedding : Bytes := [47,63,104,116,116,112,115,58,47,47,97]

def plainBase : ParsedUrl := { scheme := http, host := [104], port := 80, path := [slash] }

theorem resolveReference_sameOrigin_plain :
    ∃ resolved, resolveReference plainBase [slash,97] = .ok resolved ∧
      SameOrigin resolved plainBase :=
  (resolveReference_sameOrigin_iff plainBase (.inl (by decide))).mpr (by decide)

/-- A redirect to a path whose query embeds another URL is refused. -/
theorem resolveReference_embedding :
    parseUrl (http++schemeEnd++[104,slash]) = .ok plainBase ∧ Local embedding ∧
      resolveReference plainBase embedding = .error (.invalidArgument
        "URL scheme must be http, https, ws, or wss, got: /?https") := by
  refine ⟨by decide,.inl (by decide),by decide⟩

end A11.Url
