import LfWaap.Domain.BlockDecision
import LfWaap.Python.Patterns

/-!
# The rule set

`waf.infrastructure.ruleset`: a detector that blocks a request if one of its patterns is
found in the payload, and names the first rule of which this is so. The rules are those of
`rules.yaml`; they are compiled with `IGNORECASE` and `MULTILINE`.

A request that is blocked cannot be let through by three changes of its text
(`Waf.RuleSetDetector.blocked_of_evasion`): letters in the other case, a line added to the
body, and any body at all if the request is blocked without one. The last one depends on the
line end between the target and the body, and on that no pattern needs more of it than that
a line ends there: of the seven patterns only one can match the line end itself, and this
one does not have to (`Waf.search_terminator_append`).
-/

namespace Waf

open Python Words

variable [Interpreter] [WordTable]

/-! ### Rules -/

omit [Interpreter] [WordTable] in
/-- A signature. -/
structure Rule where
  id : Text
  description : Text
  pattern : Regex CodePoint

/-- `union\s+select` -/
def unionSelect : Regex CodePoint := .seqs [lits "union", .plus space, lits "select"]

/-- `\bor\b\s+\d+\s*=\s*\d+` -/
def tautology : Regex CodePoint :=
  .seqs [wordBoundary, lits "or", wordBoundary, .plus space, .plus digit, .star space, lit '=',
    .star space, .plus digit]

/-- `--|#|;` -/
def terminator : Regex CodePoint := .alts [lits "--", lit '#', lit ';']

/-- `(--|#|;)\s*$` -/
def trailingTerminator : Regex CodePoint := .seqs [terminator, .star space, lineEnd]

/-- `<\s*script` -/
def scriptTag : Regex CodePoint := .seqs [lit '<', .star space, lits "script"]

/-- `(javascript:|onerror\s*=|onload\s*=)` -/
def scriptHandler : Regex CodePoint :=
  .alts [lits "javascript:", .seqs [lits "onerror", .star space, lit '='],
    .seqs [lits "onload", .star space, lit '=']]

/-- `(\.\./|\.\.\\)` -/
def traversal : Regex CodePoint := .alts [lits "../", lits "..\\"]

/-- The names of the commands. -/
def commands : List String := ["cat", "ls", "whoami", "id", "wget", "curl", "nc"]

/-- ``[;&|`]\s*(cat|ls|whoami|id|wget|curl|nc)\b`` -/
def shellCommand : Regex CodePoint :=
  .seqs [oneOf ";&|`", .star space, .alts (commands.map lits), wordBoundary]

/-- **The rules** of the file. -/
def defaultRules : List Rule :=
  [⟨text "SQLI-001", text "SQL injection - UNION SELECT", unionSelect⟩,
    ⟨text "SQLI-002", text "SQL injection - boolean tautology (OR 1=1)", tautology⟩,
    ⟨text "SQLI-003", text "SQL injection - comment/terminator", trailingTerminator⟩,
    ⟨text "XSS-001", text "Cross-site scripting - script tag", scriptTag⟩,
    ⟨text "XSS-002", text "Cross-site scripting - javascript: / event handler", scriptHandler⟩,
    ⟨text "LFI-001", text "Path traversal", traversal⟩,
    ⟨text "RCE-001", text "Command injection - shell metacharacters with command",
      shellCommand⟩]

/-! ### The detector -/

omit [Interpreter] [WordTable] in
/-- A detector with a list of rules. -/
structure RuleSetDetector where
  rules : List Rule

namespace RuleSetDetector

/-- The name of the detector. -/
def name : Text := text "ruleset"

/-- The detector with the rules of the file. -/
def default : RuleSetDetector := ⟨defaultRules⟩

/-- The first rule whose pattern is found in a request. -/
def firstMatch (d : RuleSetDetector) (request : HttpRequest) : Option Rule :=
  d.rules.find? fun rule => rule.pattern.search request.inspectablePayload

/-- **Inspecting a request.** -/
noncomputable def inspect (d : RuleSetDetector) (request : HttpRequest) : DetectionSignal :=
  match d.firstMatch request with
  | some rule => ⟨name, true, rule.id ++ text ": " ++ rule.description, 1⟩
  | none => ⟨name, false, text "no rule matched", 0⟩

/-- The detector behind the port. -/
noncomputable def toDetector (d : RuleSetDetector) : Detector :=
  ⟨name, fun request => .ok (d.inspect request)⟩

omit [WordTable] in
/-- A request is blocked exactly if the pattern of some rule is found in it. -/
theorem blocked_iff (d : RuleSetDetector) (request : HttpRequest) :
    (d.inspect request).blocked = true ↔
      ∃ rule ∈ d.rules, rule.pattern.search request.inspectablePayload = true := by
  rw [inspect, firstMatch]
  cases h : d.rules.find? fun rule => rule.pattern.search request.inspectablePayload with
  | none =>
    refine iff_of_false Bool.false_ne_true ?_
    rintro ⟨rule, hmem, hsearch⟩
    exact List.find?_eq_none.mp h rule hmem hsearch
  | some rule =>
    have hsearch := List.find?_some h
    exact iff_of_true rfl ⟨rule, List.mem_of_find?_eq_some h, hsearch⟩

end RuleSetDetector

/-! ### The patterns -/

/-- **No pattern tells the two cases of a letter apart.** -/
theorem respects_defaultRules : ∀ rule ∈ defaultRules, rule.pattern.Respects SameLetter := by
  simp only [defaultRules, List.forall_mem_cons]
  refine ⟨?_, ?_, ?_, ?_, ?_, ?_, ?_, List.forall_mem_nil _⟩
  · exact ⟨respects_lits _, Regex.respects_plus respects_space, respects_lits _⟩
  · exact ⟨respects_wordBoundary, respects_lits _, respects_wordBoundary,
      Regex.respects_plus respects_space, Regex.respects_plus respects_digit, respects_space,
      respects_lit _,
      respects_space, Regex.respects_plus respects_digit⟩
  · exact ⟨⟨respects_lits _, respects_lit _, respects_lit _⟩, respects_space, respects_lineEnd⟩
  · exact ⟨respects_lit _, respects_space, respects_lits _⟩
  · exact ⟨respects_lits _, ⟨respects_lits _, respects_space, respects_lit _⟩, respects_lits _,
      respects_space, respects_lit _⟩
  · exact ⟨respects_lits _, respects_lits _⟩
  · refine ⟨respects_oneOf _, respects_space, Regex.respects_alts fun r hr => ?_,
      respects_wordBoundary⟩
    obtain ⟨s, -, rfl⟩ := List.mem_map.mp hr
    exact respects_lits s

/-- **Every pattern takes a line end for the end of the text.** -/
theorem passesEnd_defaultRules : ∀ rule ∈ defaultRules, rule.pattern.PassesEnd (cp '\n') := by
  simp only [defaultRules, List.forall_mem_cons]
  refine ⟨?_, ?_, ?_, ?_, ?_, ?_, ?_, List.forall_mem_nil _⟩
  · exact ⟨passesEnd_lits _, ⟨trivial, trivial⟩, passesEnd_lits _⟩
  · exact ⟨passesEnd_wordBoundary, passesEnd_lits _, passesEnd_wordBoundary, ⟨trivial, trivial⟩,
      ⟨trivial, trivial⟩, trivial, trivial, trivial, trivial, trivial⟩
  · exact ⟨⟨passesEnd_lits _, trivial, trivial⟩, trivial, passesEnd_lineEnd⟩
  · exact ⟨trivial, trivial, passesEnd_lits _⟩
  · exact ⟨passesEnd_lits _, ⟨passesEnd_lits _, trivial, trivial⟩, passesEnd_lits _, trivial,
      trivial⟩
  · exact ⟨passesEnd_lits _, passesEnd_lits _⟩
  · refine ⟨trivial, trivial, Regex.passesEnd_alts fun r hr => ?_, passesEnd_wordBoundary⟩
    obtain ⟨s, -, rfl⟩ := List.mem_map.mp hr
    exact passesEnd_lits s

/-- **No pattern but one** can match a line end last. -/
theorem neverLast_defaultRules : ∀ rule ∈ defaultRules,
    rule.pattern.Consumes ∧ rule.pattern.NeverLast (cp '\n') ∨
      rule.pattern = trailingTerminator := by
  simp only [defaultRules, List.forall_mem_cons]
  refine ⟨.inl ?_, .inl ?_, .inr ?_, .inl ?_, .inl ?_, .inl ?_, .inl ?_, List.forall_mem_nil _⟩
  · have hselect : (lits "select").Consumes := consumes_lits (by decide)
    exact ⟨.inr (.inr hselect), ⟨neverLast_lits (by decide), .inl hselect⟩, .inl (.inr hselect)⟩
  · have hdigits : (Regex.plus digit).Consumes ∧ (Regex.plus digit).NeverLast (cp '\n') :=
      ⟨.inl trivial, neverLast_digit, .inr neverLast_digit⟩
    -- every part is followed by the digits at the end
    have hcons : ∀ rs : List (Regex CodePoint), (Regex.seqs (rs ++ [.plus digit])).Consumes :=
      fun rs => Regex.consumes_seqs (List.mem_append_right _ (List.mem_singleton_self _)) hdigits.1
    have hlast : ∀ rs : List (Regex CodePoint),
        (Regex.seqs (rs ++ [.plus digit])).NeverLast (cp '\n') := fun rs =>
      Regex.neverLast_seqs_concat hdigits.1 hdigits.2 rs
    exact ⟨hcons [_, _, _, _, _, _, _, _], hlast [_, _, _, _, _, _, _, _]⟩
  · trivial
  · have hscript : (lits "script").Consumes := consumes_lits (by decide)
    exact ⟨.inl trivial, ⟨neverLast_lits (by decide), .inl hscript⟩, .inl (.inr hscript)⟩
  · have hassign : ∀ s : String, (Regex.seqs [lits s, .star space, lit '=']).Consumes ∧
        (Regex.seqs [lits s, .star space, lit '=']).NeverLast (cp '\n') := fun s =>
      ⟨.inr (.inr trivial), ⟨neverLast_lit (by decide), .inl trivial⟩, .inl (.inr trivial)⟩
    exact ⟨⟨consumes_lits (by decide), (hassign _).1, (hassign _).1⟩, neverLast_lits (by decide),
      (hassign _).2, (hassign _).2⟩
  · exact ⟨⟨consumes_lits (by decide), consumes_lits (by decide)⟩, neverLast_lits (by decide),
      neverLast_lits (by decide)⟩
  · have hnames : (Regex.alts (commands.map lits)).Consumes ∧
        (Regex.alts (commands.map lits)).NeverLast (cp '\n') := by
      have hcommands : ∀ s ∈ commands, s ≠ "" ∧ '\n' ∉ s.toList := by decide
      constructor
      · refine Regex.consumes_alts (fun r hr => ?_) (List.cons_ne_nil _ _)
        obtain ⟨s, hs, rfl⟩ := List.mem_map.mp hr
        exact consumes_lits (hcommands s hs).1
      · refine Regex.neverLast_alts fun r hr => ?_
        obtain ⟨s, hs, rfl⟩ := List.mem_map.mp hr
        exact neverLast_lits (hcommands s hs).2
    exact ⟨.inl trivial, ⟨⟨trivial, .inr hnames.2⟩, .inl (.inl hnames.1)⟩,
      .inl (.inr (.inl hnames.1))⟩

/-! ### Changes that do not help -/

omit [WordTable] in
/-- **The terminator** is found before a line end if it is found before the end of a text that
ends with one: the white space up to there is matched as well without the line end. -/
theorem search_terminator_append {w : Text}
    (h : trailingTerminator.search (w ++ [cp '\n']) = true) (w' : Text) :
    trailingTerminator.search (w ++ cp '\n' :: w') = true := by
  obtain ⟨pre, mid, post, hw, hm⟩ := (Regex.search_iff _ _).mp h
  by_cases hpost : post = []
  · obtain rfl := hpost
    -- the match takes the line end: the terminator does not, so the white space does
    rcases hm with _ | _ | @⟨_, _, _, u, v, _, hu, hv⟩
    rcases hv with _ | _ | @⟨_, _, _, ws, e, _, hws, hend⟩
    rcases hend with _ | hend
    have hterm : terminator.Consumes ∧ terminator.NeverLast (cp '\n') :=
      ⟨⟨consumes_lits (by decide), trivial, trivial⟩, neverLast_lits (by decide),
        neverLast_lit (by decide), neverLast_lit (by decide)⟩
    simp only [List.append_nil] at hw hu hws
    rcases ws.eq_nil_or_concat with rfl | ⟨ws', c, rfl⟩
    · have hlast := hu.getLast?_ne hterm.2
      obtain ⟨t, y, rfl⟩ := u.eq_nil_or_concat.resolve_left (hu.ne_nil hterm.1)
      have hw' := congrArg List.getLast? hw
      simp only [List.concat_eq_append, List.append_nil, ← List.append_assoc,
        List.getLast?_concat] at hw' hlast
      exact absurd hw'.symm hlast
    · rw [List.concat_eq_append, ← List.append_assoc, ← List.append_assoc] at hw
      obtain ⟨rfl, hc⟩ := List.append_inj' hw rfl
      obtain rfl := List.singleton_inj.mp hc
      rw [List.concat_eq_append] at hu hws
      have hspaces := Regex.matches_star_letter_iff.mp hws
      refine (Regex.search_iff _ _).mpr ⟨pre, u ++ ws', cp '\n' :: w', ?_, .seq ?_ ?_⟩
      · rw [List.append_assoc pre]
      · have hctx := hu.append (List.append_ne_nil_of_right_ne_nil ws' (List.cons_ne_nil _ _)) w'
        rwa [List.append_assoc] at hctx
      · have hend : Regex.Matches lineEnd (pre ++ u ++ ws') [] (cp '\n' :: w') :=
          .look (Bool.or_eq_true_iff.mpr (.inr (decide_eq_true rfl)))
        have hstar : Regex.Matches (.star space) (pre ++ u) ws' ([] ++ cp '\n' :: w') :=
          Regex.matches_star_letter_iff.mpr fun x hx => hspaces x (List.mem_append_left _ hx)
        have hseq := Regex.Matches.seq hstar hend
        rwa [List.append_nil] at hseq
  · exact hm.search_append hw hpost w'

omit [WordTable] in
/-- Path and query of a payload. -/
def payloadHead (request : HttpRequest) : Text :=
  if request.query = [] then request.path else request.path ++ text "?" ++ request.query

omit [WordTable] in
theorem inspectablePayload_eq (request : HttpRequest) :
    request.inspectablePayload = payloadHead request ++ cp '\n' :: request.body := by
  have hnl : text "\n" = [cp '\n'] := rfl
  rw [HttpRequest.inspectablePayload, payloadHead, hnl]
  split_ifs <;> simp

omit [WordTable] in
/-- The payloads of two requests are the same up to case, if their parts are. -/
theorem forall₂_inspectablePayload {request request' : HttpRequest}
    (hpath : List.Forall₂ SameLetter request.path request'.path)
    (hquery : List.Forall₂ SameLetter request.query request'.query)
    (hbody : List.Forall₂ SameLetter request.body request'.body) :
    List.Forall₂ SameLetter request.inspectablePayload request'.inspectablePayload := by
  have hrefl : ∀ t : Text, List.Forall₂ SameLetter t t := fun t =>
    List.forall₂_same.mpr fun _ _ => rfl
  have hempty : request.query = [] ↔ request'.query = [] := by
    rw [← List.length_eq_zero_iff, hquery.length_eq, List.length_eq_zero_iff]
  have hhead : List.Forall₂ SameLetter (payloadHead request) (payloadHead request') := by
    rw [payloadHead, payloadHead]
    by_cases hq : request.query = []
    · rw [if_pos hq, if_pos (hempty.mp hq)]
      exact hpath
    · rw [if_neg hq, if_neg fun hq' => hq (hempty.mpr hq')]
      exact List.rel_append (List.rel_append hpath (hrefl _)) hquery
  rw [inspectablePayload_eq, inspectablePayload_eq]
  exact List.rel_append hhead (.cons rfl hbody)

/-- **No evasion by case or padding.** A request that the rules of the file block is blocked
as well if letters of path, query and body are written in the other case; if a line end and any
text are put behind its body; and, if it has no body, with every body. -/
theorem RuleSetDetector.blocked_of_evasion (request : HttpRequest)
    (h : (RuleSetDetector.default.inspect request).blocked = true) :
    (∀ request' : HttpRequest, List.Forall₂ SameLetter request.path request'.path →
      List.Forall₂ SameLetter request.query request'.query →
      List.Forall₂ SameLetter request.body request'.body →
        (RuleSetDetector.default.inspect request').blocked = true) ∧
    (∀ x : Text, (RuleSetDetector.default.inspect
        { request with body := request.body ++ cp '\n' :: x }).blocked = true) ∧
    (request.body = [] → ∀ body : Text,
      (RuleSetDetector.default.inspect { request with body := body }).blocked = true) := by
  obtain ⟨rule, hmem, hsearch⟩ := (blocked_iff _ request).mp h
  refine ⟨fun request' hpath hquery hbody => ?_, fun x => ?_, fun hbody body => ?_⟩
  · have hpayload := forall₂_inspectablePayload hpath hquery hbody
    exact (blocked_iff _ _).mpr ⟨rule, hmem,
      Regex.search_forall₂ (respects_defaultRules rule hmem) hpayload hsearch⟩
  · refine (blocked_iff _ _).mpr ⟨rule, hmem, ?_⟩
    have hlonger := Regex.search_append_cons (passesEnd_defaultRules rule hmem) hsearch x
    rw [inspectablePayload_eq, List.append_assoc] at hlonger
    rw [inspectablePayload_eq]
    exact hlonger
  · refine (blocked_iff _ _).mpr ⟨rule, hmem, ?_⟩
    rw [inspectablePayload_eq, hbody] at hsearch
    rw [inspectablePayload_eq]
    rcases neverLast_defaultRules rule hmem with ⟨hcons, hlast⟩ | hterminator
    · exact Regex.search_append_of_neverLast hcons hlast hsearch body
    · rw [hterminator] at hsearch ⊢
      exact search_terminator_append hsearch body

omit [Interpreter] [WordTable] in
/-- A request that is blocked over a terminator at the end of its query. -/
theorem RuleSetDetector.blocked_of_evasion_terminator :
    let _ : Interpreter := .ascii
    let _ : WordTable := .ascii
    let request := HttpRequest.new (text "GET") (text "/a") (text "id=1'#")
    (RuleSetDetector.default.inspect request).blocked = true ∧
      (RuleSetDetector.default.inspect { request with body := text "x" }).blocked = true := by
  intro _ _ request
  have h : (RuleSetDetector.default.inspect request).blocked = true := by
    refine (blocked_iff _ _).mpr ?_
    have hany : RuleSetDetector.default.rules.any (fun rule =>
        rule.pattern.search request.inspectablePayload) = true := by
      decide +kernel
    exact List.any_eq_true.mp hany
  exact ⟨h, (blocked_of_evasion request h).2.2 rfl (text "x")⟩

end Waf
