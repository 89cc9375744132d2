import LfWaap.LearningData.Progress

/-!
# The demonstration

`learning_data.kafka_pipeline.run_demo`: flows are drawn and published, a detector is trained and
evaluated with them, and two requests are inspected, all through one channel in memory. The random
generator is a parameter here, so what holds of the demonstration holds of whatever is drawn
(`LearningData.runDemo_answers`): it does not raise, all evaluated flows fall into the one
partition that a model is trained for, so that there are metrics, and the injection among the
requests is blocked.
-/

namespace LearningData

open Python Waf Words

variable [Interpreter]

/-! ### What is drawn -/

omit [Interpreter] in
/-- The paths of the requests. -/
def demoPaths : List Text :=
  [text "/index.html", text "/products", text "/api/items", text "/search"]

omit [Interpreter] in
/-- What is drawn for a request: a path, and a number below 10000 that is not 0. -/
structure NormalDraw where
  path : Text
  id : ℕ
  path_mem : path ∈ demoPaths
  id_pos : 1 ≤ id
  id_le : id ≤ 9999

omit [Interpreter] in
/-- What is drawn for an attack: from 90 to 200 octets. -/
structure AttackDraw where
  payload : Bytes
  length_ge : 90 ≤ payload.length
  length_le : payload.length ≤ 200

omit [Interpreter] in
/-- The text of a request. -/
def NormalDraw.text (draw : NormalDraw) : Text :=
  Python.text "GET " ++ draw.path ++ Python.text "?id=" ++ natText draw.id ++
    Python.text "&sort=price HTTP/1.1\r\n" ++
    Python.text "Host: shop.example.com\r\nUser-Agent: Mozilla/5.0\r\n\r\n"

/-- A request of the normal traffic. Its text is ASCII, so that encoding it does not raise. -/
def demoNormalFlow (draw : NormalDraw) : Flow :=
  Flow.new (text "http") 80 .inbound (utf8 draw.text)

/-- An attack. -/
def demoAttackFlow (draw : AttackDraw) : Flow := Flow.new (text "http") 80 .inbound draw.payload

omit [Interpreter] in
/-- The version that is trained. -/
noncomputable def demoVariant : ModelVariant where
  name := text "demo"
  nStates := 4
  targetFpr := 1 / 10
  minTrainSequences := 5
  nIter := 30

/-- A request like those of the normal traffic. -/
def demoRequest : HttpRequest := HttpRequest.new (text "GET") (text "/products") (text "id=42")

/-- An injection. -/
def demoInjection : HttpRequest := HttpRequest.new (text "GET") (text "/items") (text "id=1 OR 1=1")

/-- **The demonstration**, as the commands it gives. -/
noncomputable def runDemo (normal validation evaluation : List NormalDraw)
    (attacks : List AttackDraw) : List Command :=
  normal.map (fun draw => Command.publish .fitting (demoNormalFlow draw)) ++
    validation.map (fun draw => Command.publish .calibrating (demoNormalFlow draw)) ++
    [Command.train demoVariant] ++
    evaluation.map (fun draw => Command.publishLabeled (demoNormalFlow draw) false) ++
    attacks.map (fun draw => Command.publishLabeled (demoAttackFlow draw) true) ++
    [Command.evaluate (1 / 10), .publishRequest demoRequest, .publishRequest demoInjection,
      .inspect]

/-! ### The partition of what is drawn -/

omit [Interpreter] in
theorem asciiText_of_mem_demoPaths : ∀ path ∈ demoPaths, AsciiText path := by
  simp only [demoPaths, List.forall_mem_cons]
  exact ⟨by decide, by decide, by decide, by decide, List.forall_mem_nil _⟩

omit [Interpreter] in
theorem length_of_mem_demoPaths : ∀ path ∈ demoPaths, 7 ≤ path.length ∧ path.length ≤ 11 := by
  simp only [demoPaths, List.forall_mem_cons]
  exact ⟨by decide, by decide, by decide, by decide, List.forall_mem_nil _⟩

omit [Interpreter] in
/-- The text of a request has from 65 to 256 letters. -/
theorem NormalDraw.length_payload (draw : NormalDraw) :
    65 ≤ (utf8 draw.text).length ∧ (utf8 draw.text).length ≤ 256 := by
  have hpath := length_of_mem_demoPaths draw.path draw.path_mem
  have hascii : AsciiText draw.text := by
    have hid := (plainText_natText draw.id).ascii
    have hp := asciiText_of_mem_demoPaths draw.path draw.path_mem
    simp only [NormalDraw.text, asciiText_append]
    exact ⟨⟨⟨⟨⟨by decide, hp⟩, by decide⟩, hid⟩, by decide⟩, by decide⟩
  have hid : (natText draw.id).length ≤ 4 := by
    rw [natText, List.length_map, Nat.length_toDigits_le_iff (by omega) (by omega)]
    have := draw.id_le
    omega
  have hlength : draw.text.length = draw.path.length + (natText draw.id).length + 81 := by
    have h₁ : (Python.text "GET ").length = 4 := rfl
    have h₂ : (Python.text "?id=").length = 4 := rfl
    have h₃ : (Python.text "&sort=price HTTP/1.1\r\n").length = 22 := rfl
    have h₄ : (Python.text "Host: shop.example.com\r\nUser-Agent: Mozilla/5.0\r\n\r\n").length =
      51 := rfl
    simp only [NormalDraw.text, List.length_append, h₁, h₂, h₃, h₄]
    omega
  rw [utf8_ascii hascii, asciiBytes, List.length_map, hlength]
  omega

/-- The partition of everything that is drawn. -/
def demoKey : PartitionKey := ⟨lower (text "http"), 80, .inbound, text "65-256"⟩

omit [Interpreter] in
theorem lengthBucket_eq {n : ℕ} (h : 65 ≤ n ∧ n ≤ 256) : lengthBucket n = text "65-256" := by
  rw [lengthBucket, lengthEdges, lengthBucketFrom, if_neg (by omega), lengthBucketFrom,
    if_pos (by omega)]
  rfl

/-- Flows of some length are in this partition. -/
theorem partitionKey_eq_demoKey {payload : Bytes} (h : 65 ≤ payload.length ∧ payload.length ≤ 256) :
    partitionKey (Flow.new (text "http") 80 .inbound payload) = demoKey := by
  have hne : payload ≠ [] := by
    rintro rfl
    exact absurd h.1 (by decide)
  have hlength : (Flow.new (text "http") 80 .inbound payload).length = (payload.length : ℤ) :=
    if_neg hne
  rw [partitionKey, hlength, lengthBucket_eq h]
  rfl

/-- Flows without packets survive their codec, if their protocol is ASCII. -/
theorem transmissible_http (payload : Bytes) :
    (Flow.new (text "http") 80 .inbound payload).Transmissible := by
  have hascii : AsciiText (lower (text "http")) := by
    rw [Interpreter.lower_ascii _ (by decide)]
    decide
  exact ⟨noSurrogatePair_of_ascii hascii, nofun⟩

/-! ### The requests -/

/-- Requests without headers and with texts of ASCII survive their codec, and become flows. -/
theorem sound_of_ascii {path query : Text} (hpath : AsciiText path) (hquery : AsciiText query) :
    (HttpRequest.new (text "GET") path query).Transmissible ∧
      (HttpRequest.new (text "GET") path query).Serialisable := by
  have hmethod : AsciiText (upper (text "GET")) := by
    rw [Interpreter.upper_ascii _ (by decide)]
    decide
  have hempty : (HttpRequest.new (text "GET") path query).headers = .empty := rfl
  refine ⟨⟨noSurrogatePair_of_ascii hmethod, noSurrogatePair_of_ascii hpath,
    noSurrogatePair_of_ascii hquery, List.IsChain.nil, List.IsChain.nil, ?_⟩, ?_,
    encodableText_of_ascii hmethod, encodableText_of_ascii hpath, encodableText_of_ascii hquery,
    List.forall_mem_nil _, ?_⟩
  · rw [hempty]
    exact nofun
  · intro host hhost
    rw [hempty, Dict.get?_empty] at hhost
    cases hhost
  · rw [hempty]
    exact nofun

section

variable [WordTable]

/-- **The injection is found**, whatever the tables of the interpreter hold beyond ASCII. -/
theorem search_tautology {pre : Text} (hpre : pre.getLast? = some (cp ' ')) (post : Text) :
    tautology.search (pre ++ text "OR 1=1" ++ post) = true := by
  refine (Regex.search_iff _ _).mpr ⟨pre, _, post, rfl, ?_⟩
  have hspace : Interpreter.isSpace (cp ' ') = true := by
    rw [Interpreter.isSpace_latin1 _ (by decide)]
    decide
  have hdigit : (Interpreter.decimal (cp '1')).isSome = true := by
    rw [Interpreter.decimal_latin1 _ (by decide)]
    decide
  have hword : ∀ c : Char, IsAscii (cp c) → WordTable.isWord (cp c) = asciiWord (cp c) :=
    fun c hc => WordTable.isWord_ascii (cp c) hc
  -- one part for each of the nine expressions
  have hparts : text "OR 1=1" = [] ++ (text "OR" ++ ([] ++ ([cp ' '] ++ [] ++ ([cp '1'] ++ [] ++
      ([] ++ ([cp '='] ++ ([] ++ ([cp '1'] ++ [] ++ [])))))))) := rfl
  rw [hparts]
  refine .seqs_cons (.look ?_) (.seqs_cons (matches_lits ?_ _ _) (.seqs_cons (.look ?_)
    (.seqs_cons (.seq (.letter hspace) .nil) (.seqs_cons (.seq (.letter hdigit) .nil)
      (.seqs_cons .nil (.seqs_cons (.letter (by decide)) (.seqs_cons .nil
        (.seqs_cons (.seq (.letter hdigit) .nil) (.look rfl)))))))))
  · rw [hpre]
    show (WordTable.isWord (cp ' ') != WordTable.isWord (cp 'O')) = true
    rw [hword ' ' (by decide), hword 'O' (by decide)]
    decide
  · decide
  · rw [List.append_nil, List.getLast?_append_of_ne_nil _ (by decide)]
    show (WordTable.isWord (cp 'R') != WordTable.isWord (cp ' ')) = true
    rw [hword 'R' (by decide), hword ' ' (by decide)]
    decide

/-- The rule set blocks the injection. -/
theorem blocked_demoInjection : (RuleSetDetector.default.inspect demoInjection).blocked = true := by
  refine (RuleSetDetector.blocked_iff _ _).mpr
    ⟨⟨text "SQLI-002", text "SQL injection - boolean tautology (OR 1=1)", tautology⟩, ?_, ?_⟩
  · exact List.mem_cons_of_mem _ List.mem_cons_self
  · have hpayload : demoInjection.inspectablePayload =
        text "/items?id=1 " ++ text "OR 1=1" ++ text "\n" := rfl
    rw [hpayload]
    exact search_tautology (by decide) _

variable [Libraries]

/-- **So does the service**, with any detector beside the rule set. -/
theorem isBlocked_demoInjection (d : HmmDetector) {verdict : Verdict}
    (h : (decisionService d).decide demoInjection = .ok verdict) : verdict.isBlocked = true := by
  obtain ⟨ss, hss, rfl⟩ := exists_of_map_eq_ok h
  obtain ⟨s, ss', hs, -, rfl⟩ := mapM_cons_eq_ok_iff.mp hss
  obtain rfl : RuleSetDetector.default.inspect demoInjection = s := Except.ok.inj hs
  have hblock : shouldBlock .any (RuleSetDetector.default.inspect demoInjection :: ss') = true := by
    rw [shouldBlock, List.filter_cons_of_pos blocked_demoInjection]
    exact decide_eq_true (Nat.succ_pos _)
  show (verdictOf .any _).isBlocked = true
  rw [verdictOf, hblock]
  rfl

/-! ### The answers -/

variable [ScikitLearn]

theorem Ledger.step_fitting (l : Ledger) (flow : Flow) :
    Ledger.machine.step l (.publish .fitting flow) =
      ({ l with normal := l.normal ++ [flow] }, .done) := rfl

theorem Ledger.step_calibrating (l : Ledger) (flow : Flow) :
    Ledger.machine.step l (.publish .calibrating flow) =
      ({ l with validation := l.validation ++ [flow] }, .done) := rfl

theorem Ledger.step_publishLabeled (l : Ledger) (x : Flow × Bool) :
    Ledger.machine.step l (.publishLabeled x.1 x.2) =
      ({ l with labeled := l.labeled ++ [x] }, .done) := rfl

/-- Flows are published to be fitted on. -/
theorem run_publish_fitting {δ : Type} (f : δ → Flow) (l : Ledger) (xs : List δ) :
    Ledger.machine.run l (xs.map fun x => .publish .fitting (f x)) =
      ({ l with normal := l.normal ++ xs.map f }, List.replicate xs.length .done) := by
  refine Machine.run_map (fun x => Command.publish .fitting (f x))
    (fun l xs => { l with normal := l.normal ++ xs.map f }) Answer.done ?_ ?_ ?_ l xs
  · intro l
    rw [List.map_nil, List.append_nil]
  · intro l x xs
    simp only [Ledger.step_fitting, List.map_cons, List.append_assoc, List.singleton_append]
  · intro l x
    rw [Ledger.step_fitting]

/-- Flows are published to be calibrated with. -/
theorem run_publish_calibrating {δ : Type} (f : δ → Flow) (l : Ledger) (xs : List δ) :
    Ledger.machine.run l (xs.map fun x => .publish .calibrating (f x)) =
      ({ l with validation := l.validation ++ xs.map f }, List.replicate xs.length .done) := by
  refine Machine.run_map (fun x => Command.publish .calibrating (f x))
    (fun l xs => { l with validation := l.validation ++ xs.map f }) Answer.done ?_ ?_ ?_ l xs
  · intro l
    rw [List.map_nil, List.append_nil]
  · intro l x xs
    simp only [Ledger.step_calibrating, List.map_cons, List.append_assoc, List.singleton_append]
  · intro l x
    rw [Ledger.step_calibrating]

/-- Labelled flows are published. -/
theorem run_publishLabeled {δ : Type} (f : δ → Flow × Bool) (l : Ledger) (xs : List δ) :
    Ledger.machine.run l (xs.map fun x => .publishLabeled (f x).1 (f x).2) =
      ({ l with labeled := l.labeled ++ xs.map f }, List.replicate xs.length .done) := by
  refine Machine.run_map (fun x => Command.publishLabeled (f x).1 (f x).2)
    (fun l xs => { l with labeled := l.labeled ++ xs.map f }) Answer.done ?_ ?_ ?_ l xs
  · intro l
    rw [List.map_nil, List.append_nil]
  · intro l x xs
    simp only [Ledger.step_publishLabeled, List.map_cons, List.append_assoc,
      List.singleton_append]
  · intro l x
    rw [Ledger.step_publishLabeled]

omit [WordTable] [Libraries] [ScikitLearn] in
/-- All commands of the demonstration survive the pipe. -/
theorem transmissible_runDemo (normal validation evaluation : List NormalDraw)
    (attacks : List AttackDraw) :
    ∀ command ∈ runDemo normal validation evaluation attacks, command.Transmissible := by
  have hmap : ∀ {δ : Type} (c : δ → Command) (xs : List δ), (∀ x, (c x).Transmissible) →
      ∀ command ∈ xs.map c, command.Transmissible := by
    intro δ c xs hc command hcommand
    obtain ⟨x, -, rfl⟩ := List.mem_map.mp hcommand
    exact hc x
  have hrequest : demoRequest.Transmissible := (sound_of_ascii (by decide) (by decide)).1
  have hinjection : demoInjection.Transmissible := (sound_of_ascii (by decide) (by decide)).1
  have hlast : ∀ command ∈ [Command.evaluate (1 / 10), .publishRequest demoRequest,
      .publishRequest demoInjection, .inspect], command.Transmissible := by
    simp only [List.forall_mem_cons]
    exact ⟨trivial, hrequest, hinjection, trivial, List.forall_mem_nil _⟩
  have htrain : ∀ command ∈ [Command.train demoVariant], command.Transmissible :=
    List.forall_mem_singleton.mpr trivial
  exact forall_mem_append (forall_mem_append (forall_mem_append (forall_mem_append
    (forall_mem_append (hmap _ _ fun _ => transmissible_http _) (hmap _ _ fun _ =>
      transmissible_http _)) htrain) (hmap _ _ fun _ => transmissible_http _))
        (hmap _ _ fun _ => transmissible_http _)) hlast

omit [WordTable] [Libraries] [ScikitLearn] in
/-- The flows that are drawn are covered by the benchmark of flows that are drawn. -/
theorem covers_demo {b : ModelBenchmark} (hn : 5 ≤ b.normal.length) (hv : 1 ≤ b.validation.length)
    (hnormal : ∀ f ∈ b.normal, partitionKey f = demoKey)
    (hvalidation : ∀ f ∈ b.validation, partitionKey f = demoKey) {f : Flow}
    (hf : partitionKey f = demoKey) : b.covers 5 f = true := by
  have hall : ∀ flows : List Flow, (∀ g ∈ flows, partitionKey g = demoKey) →
      flows.filter (fun g => partitionKey g = partitionKey f) = flows := fun flows h =>
    List.filter_eq_self.mpr fun g hg => decide_eq_true ((h g hg).trans hf.symm)
  rw [ModelBenchmark.covers, hall _ hnormal, hall _ hvalidation, decide_eq_true_iff]
  omega

/-- What the ledger holds when the detector is evaluated, and the answers so far. -/
theorem run_runDemo_train {normal validation evaluation : List NormalDraw}
    {attacks : List AttackDraw} {d trained : HmmDetector}
    (hbuild : demoVariant.buildDetector = .ok d)
    (htrain : d.train (normal.map demoNormalFlow) (validation.map demoNormalFlow) =
      (trained, .ok ())) :
    Ledger.machine.run { }
        (normal.map (fun draw => Command.publish .fitting (demoNormalFlow draw)) ++
          validation.map (fun draw => Command.publish .calibrating (demoNormalFlow draw)) ++
          [Command.train demoVariant] ++
          evaluation.map (fun draw => Command.publishLabeled (demoNormalFlow draw) false) ++
          attacks.map (fun draw => Command.publishLabeled (demoAttackFlow draw) true)) =
      ({ normal := normal.map demoNormalFlow
         validation := validation.map demoNormalFlow
         labeled := evaluation.map (fun draw => (demoNormalFlow draw, false)) ++
          attacks.map fun draw => (demoAttackFlow draw, true)
         detector := some trained },
        List.replicate normal.length Answer.done ++ List.replicate validation.length Answer.done ++
          [Answer.counts normal.length validation.length] ++
          List.replicate evaluation.length Answer.done ++
          List.replicate attacks.length Answer.done) := by
  have hstep : Ledger.machine.run
      { normal := normal.map demoNormalFlow, validation := validation.map demoNormalFlow }
        [.train demoVariant] =
      ({ normal := normal.map demoNormalFlow
         validation := validation.map demoNormalFlow
         detector := some trained }, [.counts normal.length validation.length]) := by
    show ((Ledger.train _ demoVariant).1, [(Ledger.train _ demoVariant).2]) = _
    rw [Ledger.train_of_ok hbuild htrain, List.length_map, List.length_map]
  have hE := run_publishLabeled (fun draw => (demoNormalFlow draw, false))
    { normal := normal.map demoNormalFlow
      validation := validation.map demoNormalFlow
      detector := some trained } evaluation
  have hA := fun l => run_publishLabeled (fun draw => (demoAttackFlow draw, true)) l attacks
  simp only [Machine.run_append, run_publish_fitting, run_publish_calibrating, List.nil_append,
    hstep, hE, hA]

omit [WordTable] [Libraries] [ScikitLearn] in
/-- The flows that are drawn. -/
def demoBenchmark (normal validation evaluation : List NormalDraw) (attacks : List AttackDraw) :
    ModelBenchmark where
  normal := normal.map demoNormalFlow
  validation := validation.map demoNormalFlow
  labeledEval := evaluation.map (fun draw => (demoNormalFlow draw, false)) ++
    attacks.map fun draw => (demoAttackFlow draw, true)

omit [WordTable] in
/-- **Every flow that is evaluated is covered**, so that the numbers of the evaluation are known. -/
theorem counts_of_demo {normal validation evaluation : List NormalDraw} {attacks : List AttackDraw}
    (hn : 5 ≤ normal.length) (hv : 1 ≤ validation.length) {r : VariantResult}
    (hr : (demoBenchmark normal validation evaluation attacks).evaluateVariant demoVariant =
      .ok r) :
    r.covered = evaluation.length + attacks.length ∧ r.uncovered = 0 ∧
      r.evalNormal = evaluation.length ∧ r.evalAttack = attacks.length := by
  obtain ⟨hvariant, hcomplete⟩ := ModelBenchmark.complete_of_evaluateVariant hr
  have hdrawn : ∀ draws : List NormalDraw, ∀ f ∈ draws.map demoNormalFlow,
      partitionKey f = demoKey := by
    intro draws f hf
    obtain ⟨draw, -, rfl⟩ := List.mem_map.mp hf
    exact partitionKey_eq_demoKey draw.length_payload
  have hcovers : ∀ {f : Flow}, partitionKey f = demoKey →
      (demoBenchmark normal validation evaluation attacks).covers 5 f = true := by
    intro f hf
    refine covers_demo ?_ ?_ (hdrawn normal) (hdrawn validation) hf
    · exact hn.trans_eq (List.length_map _).symm
    · exact hv.trans_eq (List.length_map _).symm
  have hnormal : ∀ draw, (demoBenchmark normal validation evaluation attacks).covers 5
      (demoNormalFlow draw) = true := fun draw =>
    hcovers (partitionKey_eq_demoKey draw.length_payload)
  have hattack : ∀ draw, (demoBenchmark normal validation evaluation attacks).covers 5
      (demoAttackFlow draw) = true := fun draw =>
    hcovers (partitionKey_eq_demoKey ⟨by have := draw.length_ge; omega,
      by have := draw.length_le; omega⟩)
  have hmin : r.variant.minTrainSequences = 5 := by
    rw [hvariant]
    rfl
  have hcovered := hcomplete.covered
  have hevalNormal := hcomplete.evalNormal
  have hevalAttack := hcomplete.evalAttack
  have hflows := hcomplete.flows
  rw [hmin] at hcovered hevalNormal hevalAttack
  have hlabeled : (demoBenchmark normal validation evaluation attacks).labeledEval =
      evaluation.map (fun draw => (demoNormalFlow draw, false)) ++
        attacks.map fun draw => (demoAttackFlow draw, true) := rfl
  simp only [hlabeled, List.countP_append, List.countP_map, List.length_append, List.length_map,
    Function.comp_def, hnormal, hattack, Bool.not_false, Bool.not_true, Bool.and_true,
    Bool.and_false, List.countP_true, List.countP_false, Function.const_apply, Nat.add_zero,
    Nat.zero_add] at hcovered hevalNormal hevalAttack hflows
  exact ⟨hcovered, by omega, hevalNormal, hevalAttack⟩

/-- **The demonstration does not raise**, whatever is drawn. The detector is trained with 80
flows and calibrated with 40; every evaluated flow is covered, 30 of each class, so that there are
metrics; two requests are decided, and the second one is blocked. -/
theorem runDemo_answers (hlib : Libraries.Documented) (hskl : ScikitLearn.Documented)
    (hv : demoVariant.Runnable fun f => ∃ draw, f = demoNormalFlow draw)
    {normal validation evaluation : List NormalDraw} {attacks : List AttackDraw}
    (hnormal : normal.length = 80) (hvalidation : validation.length = 40)
    (hevaluation : evaluation.length = 30) (hattacks : attacks.length = 30) :
    let result := Pipeline.machine.run { } (runDemo normal validation evaluation attacks)
    ∃ scored verdict verdict',
      result.2 =
        List.replicate 80 Answer.done ++ List.replicate 40 Answer.done ++ [Answer.counts 80 40] ++
          List.replicate 30 Answer.done ++ List.replicate 30 Answer.done ++
            [Answer.metrics scored, .done, .done, .count 2] ∧
      (scored.covered = 60 ∧ scored.uncovered = 0 ∧ scored.evalNormal = 30 ∧
        scored.evalAttack = 30 ∧ scored.report.isSome ∧ scored.classification.isSome) ∧
      result.1.channel.poll (text "waf.inspect.verdicts") =
        [encodeVerdict verdict, encodeVerdict verdict'] ∧ verdict'.isBlocked = true := by
  intro result
  let b := demoBenchmark normal validation evaluation attacks
  have hdrawn : ∀ f ∈ b.normal, ∃ draw, f = demoNormalFlow draw := by
    intro f hf
    obtain ⟨draw, -, rfl⟩ := List.mem_map.mp hf
    exact ⟨draw, rfl⟩
  obtain ⟨d, trained, hbuild, htrain, hready⟩ := hv.exists_train hlib hdrawn b.validation
  obtain ⟨scored, hscored⟩ : ∃ scored, scoreLabeledFlows trained b.labeledEval (1 / 10) =
      .ok scored :=
    (exists_scoreLabeledFlows_iff hskl hready).mpr
      ⟨fun e _ _ => HmmDetector.extracts_of_train hbuild htrain e.1, fun _ _ => by norm_num⟩
  have hr : b.evaluateVariant demoVariant = .ok (.of demoVariant b.normal.length
      b.validation.length scored) :=
    ModelBenchmark.evaluateVariant_eq_ok_iff.mpr ⟨d, trained, scored, hbuild, htrain, hscored, rfl⟩
  obtain ⟨hcovered, huncovered, hevalNormal, hevalAttack⟩ : scored.covered = 60 ∧
      scored.uncovered = 0 ∧ scored.evalNormal = 30 ∧ scored.evalAttack = 30 := by
    have hcounts := counts_of_demo (by omega) (by omega) hr
    rw [hevaluation, hattacks] at hcounts
    exact hcounts
  obtain ⟨hreport, hclass⟩ : scored.report.isSome ∧ scored.classification.isSome := by
    obtain ⟨hreport, hclass⟩ := ModelBenchmark.isSome_of_evaluateVariant hr
    have hboth : 0 < scored.evalNormal ∧ 0 < scored.evalAttack := by omega
    exact ⟨hreport.mpr hboth, hclass.mpr hboth⟩
  -- both requests are decided by the detector that has just been trained
  obtain ⟨verdict, hverdict⟩ := exists_decide hready (r := demoRequest)
    (sound_of_ascii (by decide) (by decide)).2
  obtain ⟨verdict', hverdict'⟩ := exists_decide hready (r := demoInjection)
    (sound_of_ascii (by decide) (by decide)).2
  have hdecided : mapUntil (decisionService trained).decide [demoRequest, demoInjection] =
      ([verdict, verdict'], none) := by
    simp only [mapUntil, hverdict, hverdict']
  have hledger : Ledger.machine.run { } (runDemo normal validation evaluation attacks) =
      ({ normal := b.normal
         validation := b.validation
         labeled := b.labeledEval
         requests := [demoRequest, demoInjection]
         verdicts := [verdict, verdict']
         detector := some trained },
        List.replicate 80 Answer.done ++ List.replicate 40 Answer.done ++ [Answer.counts 80 40] ++
          List.replicate 30 Answer.done ++ List.replicate 30 Answer.done ++
            [Answer.metrics scored, .done, .done, .count 2]) := by
    rw [runDemo, Machine.run_append, run_runDemo_train hbuild htrain, hnormal, hvalidation,
      hevaluation, hattacks]
    simp only [Machine.run, Ledger.machine, Ledger.step, Ledger.evaluate, Ledger.inspect,
      List.nil_append, List.cons_append, hdecided]
    exact congrArg (Prod.mk _) (congrArg (fun answer => _ ++ [answer, Answer.done, .done, .count 2])
      (congrArg (Answer.of .metrics) hscored))
  obtain ⟨hholds, hanswers⟩ := simulates.run Pipeline.holds_empty
    (transmissible_runDemo normal validation evaluation attacks)
  refine ⟨scored, verdict, verdict', hanswers.trans (congrArg Prod.snd hledger),
    ⟨hcovered, huncovered, hevalNormal, hevalAttack, hreport, hclass⟩, ?_,
    isBlocked_demoInjection trained hverdict'⟩
  have hpoll := hholds.poll .verdicts
  rw [hledger] at hpoll
  exact hpoll

omit [Interpreter] [WordTable] [Libraries] [ScikitLearn] in
/-- The same request is drawn every time, and the same attack. -/
theorem runDemo_answers_constant :
    let _ : Interpreter := .ascii
    let _ : WordTable := .ascii
    let _ : Libraries := .memoryless
    let _ : ScikitLearn := .exact
    let draw : NormalDraw :=
      { path := text "/search", id := 1, path_mem := by decide, id_pos := le_rfl
        id_le := by decide }
    let attack : AttackDraw :=
      { payload := List.replicate 90 0, length_ge := by decide, length_le := by decide }
    let commands := runDemo (List.replicate 80 draw) (List.replicate 40 draw)
      (List.replicate 30 draw) (List.replicate 30 attack)
    ∃ scored, scored.covered = 60 ∧ (Pipeline.machine.run { } commands).2 =
      List.replicate 80 Answer.done ++ List.replicate 40 Answer.done ++ [Answer.counts 80 40] ++
        List.replicate 30 Answer.done ++ List.replicate 30 Answer.done ++
          [Answer.metrics scored, .done, .done, .count 2] := by
  intro _ _ _ _ draw attack commands
  have hrunnable : demoVariant.Runnable fun f => ∃ draw, f = demoNormalFlow draw :=
    ModelVariant.runnable_memoryless rfl (Nat.succ_ne_zero 3)
      (fun cap h => absurd h.symm (Option.some_ne_none cap)) (by
        show (0 : ℝ) < 1 / 10 ∧ (1 / 10 : ℝ) < 1
        norm_num) _
  obtain ⟨scored, _, _, hanswers, hcounts, -⟩ := runDemo_answers Libraries.documented_memoryless
    ScikitLearn.documented_exact hrunnable (List.length_replicate (a := draw))
      (List.length_replicate (a := draw)) (List.length_replicate (a := draw))
      (List.length_replicate (a := attack))
  exact ⟨scored, hcounts.1, hanswers⟩

end

end LearningData
