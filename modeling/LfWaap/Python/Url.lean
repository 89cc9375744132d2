import LfWaap.Python.Loops

/-!
# Splitting a URL

`urllib.parse.urlsplit`: a URL is cut into scheme, network location, path, query and
fragment by its delimiters alone. Nothing is decoded, so the parts of a URL are parts of
its text; the path holds no question mark, since the query begins at the first one
(`Python.urlsplit_path`).

It raises over the network location only: where the brackets around an address are not
paired, and where the interpreter refuses what they enclose. A URL below `256` without
brackets is always split (`Python.exists_urlsplit`).
-/

namespace Python

variable [Interpreter]

/-- The parts of a URL. -/
structure SplitResult where
  scheme : Text
  netloc : Text
  path : Text
  query : Text
  fragment : Text

/-- The characters of a scheme: letters, digits and `+-.`. -/
def isSchemeChar (c : CodePoint) : Bool :=
  decide (48 ≤ c.val ∧ c.val ≤ 57 ∨ 65 ≤ c.val ∧ c.val ≤ 90 ∨ 97 ≤ c.val ∧ c.val ≤ 122) ||
    decide (c = cp '+') || decide (c = cp '-') || decide (c = cp '.')

/-- A letter of ASCII. -/
def isAsciiLetter (c : CodePoint) : Bool :=
  decide (65 ≤ c.val ∧ c.val ≤ 90 ∨ 97 ≤ c.val ∧ c.val ≤ 122)

/-- The URL without what no URL holds: control characters and spaces before it, tabs and
line ends anywhere. -/
def cleanUrl (url : Text) : Text :=
  (url.dropWhile fun c => decide (c.val ≤ 32)).filter fun c =>
    !(decide (c = cp '\t') || decide (c = cp '\r') || decide (c = cp '\n'))

/-- The scheme, in lower case, and what follows its colon. -/
def splitScheme (url : Text) : Text × Text :=
  match url with
  | c :: _ =>
    if cp ':' ∈ url ∧ isAsciiLetter c = true ∧ (partition (cp ':') url).1.all isSchemeChar = true
    then (lower (partition (cp ':') url).1, (partition (cp ':') url).2)
    else ([], url)
  | [] => ([], url)

/-- A character that ends a network location. -/
def endsNetloc (c : CodePoint) : Bool :=
  decide (c = cp '/') || decide (c = cp '?') || decide (c = cp '#')

/-- The network location, and what follows it. -/
def splitNetloc (url : Text) : Text × Text :=
  match url with
  | c :: d :: rest =>
    if c = cp '/' ∧ d = cp '/' then
      (rest.takeWhile fun c => !endsNetloc c, rest.dropWhile fun c => !endsNetloc c)
    else ([], url)
  | _ => ([], url)

/-- What is wrong with a network location, if anything. -/
def checkNetloc (netloc : Text) : Option PyError :=
  if decide (cp '[' ∈ netloc) = decide (cp ']' ∈ netloc) then Interpreter.netlocError netloc
  else some (.valueError "Invalid IPv6 URL")

/-- `urlsplit(url)`. -/
def urlsplit (url : Text) : Except PyError SplitResult :=
  let (scheme, rest) := splitScheme (cleanUrl url)
  let (netloc, rest) := splitNetloc rest
  let (rest, fragment) := partition (cp '#') rest
  let (path, query) := partition (cp '?') rest
  match checkNetloc netloc with
  | none => .ok ⟨scheme, netloc, path, query, fragment⟩
  | some e => .error e

/-! ### The parts -/

/-- What follows scheme and network location in a URL, up to the fragment. -/
def hierarchy (url : Text) : Text :=
  (partition (cp '#') (splitNetloc (splitScheme (cleanUrl url)).2).2).1

theorem urlsplit_eq_ok {url : Text} {parts : SplitResult} (h : urlsplit url = .ok parts) :
    parts.path = (partition (cp '?') (hierarchy url)).1 ∧
      parts.query = (partition (cp '?') (hierarchy url)).2 := by
  unfold urlsplit at h
  dsimp only at h
  split at h
  · obtain rfl := Except.ok.inj h
    exact ⟨rfl, rfl⟩
  · cases h

/-- **The path** of a URL holds no question mark. -/
theorem urlsplit_path {url : Text} {parts : SplitResult} (h : urlsplit url = .ok parts) :
    cp '?' ∉ parts.path := by
  rw [(urlsplit_eq_ok h).1]
  exact notMem_partition _ _

omit [Interpreter] in
theorem mem_of_mem_cleanUrl {c : CodePoint} {url : Text} (h : c ∈ cleanUrl url) : c ∈ url :=
  (List.dropWhile_sublist _).subset (List.mem_filter.mp h).1

theorem mem_of_mem_splitScheme {c : CodePoint} {url : Text} (h : c ∈ (splitScheme url).2) :
    c ∈ url := by
  unfold splitScheme at h
  split at h
  · split at h
    · exact mem_of_mem_partition (Or.inr h)
    · exact h
  · exact h

omit [Interpreter] in
theorem mem_of_mem_splitNetloc {c : CodePoint} {url : Text}
    (h : c ∈ (splitNetloc url).1 ∨ c ∈ (splitNetloc url).2) : c ∈ url := by
  unfold splitNetloc at h
  split at h
  · split at h
    · refine List.mem_cons_of_mem _ (List.mem_cons_of_mem _ ?_)
      exact h.elim (fun h => (List.takeWhile_sublist _).subset h)
        fun h => (List.dropWhile_sublist _).subset h
    · exact h.resolve_left (by simp)
  · exact h.resolve_left (by simp)

/-- Path and query are made of the code points of the URL. -/
theorem mem_of_mem_urlsplit {url : Text} {parts : SplitResult} (h : urlsplit url = .ok parts)
    {c : CodePoint} (hc : c ∈ parts.path ∨ c ∈ parts.query) : c ∈ url := by
  rw [(urlsplit_eq_ok h).1, (urlsplit_eq_ok h).2] at hc
  have hrest := mem_of_mem_partition (Or.inl (mem_of_mem_partition hc))
  exact mem_of_mem_cleanUrl (mem_of_mem_splitScheme (mem_of_mem_splitNetloc (Or.inr hrest)))

/-! ### When it returns -/

/-- **A URL below `256` without brackets** is split. -/
theorem exists_urlsplit {url : Text} (hlatin : Latin1Text url) (ho : cp '[' ∉ url)
    (hc : cp ']' ∉ url) : ∃ parts, urlsplit url = .ok parts := by
  have hmem : ∀ c ∈ (splitNetloc (splitScheme (cleanUrl url)).2).1, c ∈ url := fun c hc =>
    mem_of_mem_cleanUrl (mem_of_mem_splitScheme (mem_of_mem_splitNetloc (Or.inl hc)))
  have hcheck : checkNetloc (splitNetloc (splitScheme (cleanUrl url)).2).1 = none := by
    have hopen : cp '[' ∉ (splitNetloc (splitScheme (cleanUrl url)).2).1 := fun h => ho (hmem _ h)
    have hclose : cp ']' ∉ (splitNetloc (splitScheme (cleanUrl url)).2).1 := fun h => hc (hmem _ h)
    -- neither bracket is there, so the location is left to the check of its characters
    rw [checkNetloc, decide_eq_false hopen, decide_eq_false hclose, if_pos rfl]
    exact Interpreter.netlocError_latin1 _ (fun c hc => hlatin c (hmem c hc)) hopen
  unfold urlsplit
  dsimp only
  rw [hcheck]
  exact ⟨_, rfl⟩

example : let _ : Interpreter := .ascii
    (urlsplit (text "http://localhost:8080/a/b.jsp?x=1#top")).map
        (fun parts => (parts.netloc, parts.path, parts.query)) =
      .ok (text "localhost:8080", text "/a/b.jsp", text "x=1") := by
  decide

end Python
