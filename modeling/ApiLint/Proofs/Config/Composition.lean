import ApiLint.Proofs.Config.Cycles

/-!
# Loading a file from its bases

While a file is loaded, the files above it are carried along, so that cycles are found. Nothing else
depends on them: without a cycle, a file extends what its bases are when they are loaded on their
own. The first base that cannot be loaded is blamed, with what is wrong with it on its own.
-/

namespace ApiLint

/-- The file, the entry and the problem, where an entry could not be extended. -/
def ConfigError.refusal? (w : Wording) : ConfigError → Option (Path × String × String)
  | blankBase path entry => some (path, entry, "entry is empty")
  | badBase path entry reason => some (path, entry, reason.message w)
  | _ => none

theorem ConfigError.message_of_refusal? {w : Wording} {e : ConfigError} {path : Path}
    {entry problem : String} (h : e.refusal? w = some (path, entry, problem)) :
    e.message w = cannotExtend path entry problem := by
  cases e with
  | blankBase | badBase => cases h; rfl
  | _ => cases h

namespace Config

open Outcome

variable {w : Wording} {fs : FileSystem} {path : Path} {own : Config} {chain : List Target}

def NoCycle {A : Type} (r : Except ConfigError A) : Prop :=
  ∀ q, r ≠ .error (.cycle q)

theorem extend_eq {load : Path → Except ConfigError Config} : extend load path own =
    if own.bases.isEmpty then .ok own
    else (own.bases.mapM (base load path)).map fun cs => (cs.foldl merge empty).merge own := by
  unfold extend
  congr 1
  refine (congrArg (· >>= _) foldlM_map_eq).trans ?_
  cases own.bases.mapM (base load path) with
  | error e => rfl
  | ok cs => rfl

theorem base_of_error {load : Path → Except ConfigError Config} {entry : String} {e : ConfigError}
    (hspoken : Text.isBlankText entry = false) (h : load (basePath path entry) = .error e) :
    base load path entry = .error (baseError path entry e) := by
  simp only [base, hspoken, h, Bool.false_eq_true, if_false]

theorem base_congr {load load' : Path → Except ConfigError Config} {entry : String}
    (hcycle : NoCycle (base load' path entry))
    (hload : ∀ p, NoCycle (load' p) → load p = load' p) :
    base load path entry = base load' path entry := by
  unfold base
  cases hblank : Text.isBlankText entry with
  | true => rfl
  | false =>
    have hentry : load (basePath path entry) = load' (basePath path entry) :=
      hload _ fun q hq => hcycle q (base_eq_cycle_iff.2 ⟨hblank, hq⟩)
    rw [hentry]

theorem extend_congr {load load' : Path → Except ConfigError Config}
    (hcycle : NoCycle (extend load' path own))
    (hload : ∀ p, NoCycle (load' p) → load p = load' p) :
    extend load path own = extend load' path own := by
  rw [extend_eq] at hcycle
  rw [extend_eq, extend_eq]
  split at hcycle
  case isTrue hnone => rw [if_pos hnone, if_pos hnone]
  case isFalse hsome =>
    have hbases : own.bases.mapM (base load path) = own.bases.mapM (base load' path) := by
      refine mapM_congr fun entry _ => ?_
      by_cases hbase : NoCycle (base load' path entry)
      · exact .inl (base_congr hbase hload)
      · obtain ⟨q, hq⟩ : ∃ q, base load' path entry = .error (.cycle q) := by
          simpa [NoCycle] using hbase
        exact .inr ⟨_, hq, fun hall => hcycle q (map_eq_error_iff.2 hall)⟩
    rw [hbases]

theorem loadFrom_of_parse? {text : String} (hnew : fs.target path ∉ chain)
    (ht : fs.read path = .ok text) (ho : parse? path text = .ok own) : loadFrom fs chain path =
      extend (loadFrom fs (fs.target path :: chain)) path own >>= validate path := by
  rw [loadFrom_eq, if_neg hnew, ht]
  simp only [ho]
  rfl

theorem loadFrom_of_subset {chain chain' : List Target} {path : Path} (hsub : chain ⊆ chain')
    (h : NoCycle (loadFrom fs chain' path)) : loadFrom fs chain path = loadFrom fs chain' path := by
  -- The two runs go on together, each with one more file in its chain.
  have hnew' : fs.target path ∉ chain' := fun hmem =>
    h path (by rw [loadFrom_eq, if_pos hmem])
  have hnew : fs.target path ∉ chain := fun hmem => hnew' (hsub hmem)
  cases ht : fs.read path with
  | error e => simp only [loadFrom_eq, if_neg hnew, if_neg hnew', ht]
  | ok text =>
    cases ho : parse? path text with
    | error e => simp only [loadFrom_eq, if_neg hnew, if_neg hnew', ht, ho, bind, Except.bind]
    | ok own =>
      rw [loadFrom_of_parse? hnew' ht ho] at h
      rw [loadFrom_of_parse? hnew ht ho, loadFrom_of_parse? hnew' ht ho]
      have hcycle : NoCycle (extend (loadFrom fs (fs.target path :: chain')) path own) :=
        fun q hq => h q (bind_eq_error_iff.2 (.inl hq))
      rw [extend_congr hcycle fun p hp => loadFrom_of_subset (List.cons_subset_cons _ hsub) hp]
termination_by unchained fs chain'
decreasing_by exact unchained_cons hnew' ht

theorem loadFrom_eq_load (h : NoCycle (loadFrom fs chain path)) :
    loadFrom fs chain path = load fs path :=
  (loadFrom_of_subset (List.nil_subset _) h).symm

theorem loadText_eq_load {text : String} (h : fs.read path = .ok text) :
    loadText fs path text = load fs path := by
  rw [load, loadFrom_eq, if_neg List.not_mem_nil, h]
  rfl

theorem load_eq_extend {text : String} (ht : fs.read path = .ok text)
    (ho : parse? path text = .ok own) (h : NoCycle (load fs path)) :
    load fs path = extend (load fs) path own >>= validate path := by
  have hload : load fs path = extend (loadFrom fs [fs.target path]) path own >>= validate path :=
    loadFrom_of_parse? List.not_mem_nil ht ho
  rw [hload] at h ⊢
  have hcycle : NoCycle (extend (loadFrom fs [fs.target path]) path own) :=
    fun q hq => h q (bind_eq_error_iff.2 (.inl hq))
  rw [extend_congr hcycle fun p hp => (loadFrom_eq_load hp).symm]

/-- What is wrong with an entry, if its base is loaded on its own. -/
def problem? (w : Wording) (fs : FileSystem) (path : Path) (entry : String) : Option String :=
  if Text.isBlankText entry then some "entry is empty"
  else
    match load fs (basePath path entry) with
    | .ok _ => none
    | .error e => some (e.message w)

theorem problem?_of_ok {entry : String} {c : Config} (hspoken : Text.isBlankText entry = false)
    (h : load fs (basePath path entry) = .ok c) : problem? w fs path entry = none := by
  simp only [problem?, hspoken, h, Bool.false_eq_true, if_false]

theorem problem?_of_error {entry : String} {e : ConfigError}
    (hspoken : Text.isBlankText entry = false) (h : load fs (basePath path entry) = .error e) :
    problem? w fs path entry = some (e.message w) := by
  simp only [problem?, hspoken, h, Bool.false_eq_true, if_false]

theorem exists_base_of_problem?_eq_none {entry : String} (h : problem? w fs path entry = none) :
    ∃ c, load fs (basePath path entry) = .ok c ∧ base (load fs) path entry = .ok c := by
  cases hspoken : Text.isBlankText entry with
  | true => simp [problem?, hspoken] at h
  | false =>
    cases hl : load fs (basePath path entry) with
    | error e =>
      rw [problem?_of_error hspoken hl] at h
      cases h
    | ok c => exact ⟨c, rfl, base_eq_ok_iff.2 ⟨hspoken, hl⟩⟩

theorem exists_refusal_of_problem? {entry problem : String}
    (h : problem? w fs path entry = some problem) :
    ∃ e, base (load fs) path entry = .error e ∧
      ((∃ q, e = .cycle q) ∨ e.refusal? w = some (path, entry, problem)) := by
  cases hspoken : Text.isBlankText entry with
  | true =>
    rw [problem?, hspoken] at h
    obtain rfl := Option.some.inj h
    exact ⟨.blankBase path entry, if_pos hspoken, .inr rfl⟩
  | false =>
    cases hl : load fs (basePath path entry) with
    | ok c =>
      rw [problem?_of_ok hspoken hl] at h
      cases h
    | error e =>
      rw [problem?_of_error hspoken hl] at h
      obtain rfl := Option.some.inj h
      refine ⟨baseError path entry e, base_of_error hspoken hl, ?_⟩
      cases e with
      | cycle q => exact .inl ⟨q, rfl⟩
      | _ => exact .inr rfl

/-- What loading makes of a file that says `own`. -/
structure Composes (w : Wording) (fs : FileSystem) (path : Path) (own : Config) : Prop where
  /-- The first entry with a problem is blamed for it. -/
  refused : ∀ before entry after problem, own.bases = before ++ entry :: after →
    (∀ b ∈ before, problem? w fs path b = none) → problem? w fs path entry = some problem →
    ∃ e, load fs path = .error e ∧ e.refusal? w = some (path, entry, problem) ∧
      e.message w = ConfigError.cannotExtend path entry problem
  alone : own.bases = [] → load fs path = validate path own
  above : own.bases ≠ [] → (∀ entry ∈ own.bases, problem? w fs path entry = none) →
    ∃ cs : List Config, own.bases.map (fun entry => load fs (basePath path entry)) = cs.map .ok ∧
      load fs path = validate path ((cs.foldl merge empty).merge own)

theorem composes {text : String} (ht : fs.read path = .ok text) (ho : parse? path text = .ok own)
    (h : NoCycle (load fs path)) : Composes w fs path own where
  refused before entry after problem hbases hbefore hproblem := by
    have hload := load_eq_extend ht ho h
    obtain ⟨e, he, hcause⟩ := exists_refusal_of_problem? hproblem
    have hextend : extend (load fs) path own = .error e := by
      refine extend_eq_error_iff.2 ⟨before, entry, after, hbases, fun b hb => ?_, he⟩
      obtain ⟨c, -, hc⟩ := exists_base_of_problem?_eq_none (hbefore b hb)
      exact ⟨c, hc⟩
    rw [hextend] at hload
    obtain ⟨q, rfl⟩ | hrefusal := hcause
    · exact absurd hload (h q)
    · exact ⟨e, hload, hrefusal, ConfigError.message_of_refusal? hrefusal⟩
  alone hnone := by
    rw [load_eq_extend ht ho h, extend_eq, hnone]
    rfl
  above hsome hall := by
    obtain ⟨cs, hmap, hbases⟩ := exists_of_forall_eq_ok fun entry he =>
      (exists_base_of_problem?_eq_none (hall entry he)).imp fun _ hc => hc.2
    refine ⟨cs, ?_, ?_⟩
    · rw [← hmap]
      refine List.map_congr_left fun entry he => ?_
      obtain ⟨c, hload, hbase⟩ := exists_base_of_problem?_eq_none (hall entry he)
      rw [hload, hbase]
    · rw [load_eq_extend ht ho h, extend_eq, if_neg (by simpa using hsome), hbases]
      rfl

theorem load_compositional (w : Wording) (fs : FileSystem) (path : Path) :
    (∀ text, fs.read path = .ok text → loadText fs path text = load fs path) ∧
    (∀ chain, NoCycle (loadFrom fs chain path) → loadFrom fs chain path = load fs path) ∧
    ∀ text own, fs.read path = .ok text → parse? path text = .ok own → NoCycle (load fs path) →
      Composes w fs path own :=
  ⟨fun _ ht => loadText_eq_load ht, fun _ h => loadFrom_eq_load h, fun _ _ ht ho h =>
    composes ht ho h⟩

def oddText : String := "\x7b\"rules\":\x7b\"a\":[]\x7d\x7d"

def middleText : String := "\x7b\"extends\":[\"base.json\",\"odd.json\",\" \"]\x7d"

def outerText : String := "\x7b\"extends\":[\"base.json\",\"middle.json\",\"lost.json\"]\x7d"

def nested : FileSystem where
  entries := [(["base.json"], .file baseText.toUTF8), (["odd.json"], .file oddText.toUTF8),
    (["middle.json"], .file middleText.toUTF8), (["outer.json"], .file outerText.toUTF8)]
  current := []

def middleConfig : Config := ⟨["base.json", "odd.json", " "], ⟨[]⟩, ⟨[], [], fun _ => []⟩⟩

def outerConfig : Config := ⟨["base.json", "middle.json", "lost.json"], ⟨[]⟩, ⟨[], [], fun _ => []⟩⟩

def oddError : ConfigError :=
  .malformed ⟨"odd.json"⟩ .json oddText (.refused (.invalid ⟨"a", .emptyArray⟩))

/-- What a reader says that has come to the end of a text of one line. -/
def atEnd : Wording where
  unread _ text := "EOF while parsing a value at line 1 column " ++ toString text.length
  refused _ text reason := reason ++ " at line 1 column " ++ toString text.length

def oddMessage : String := "Invalid configuration at odd.json: JSON parse error: rule 'a': " ++
  "a rule setting array cannot be empty at line 1 column 18"

theorem message_oddError : oddError.message atEnd = oddMessage := by
  decide

theorem parse?_oddText : parse? ⟨"odd.json"⟩ oddText = .error oddError := by
  cbv

theorem parse?_middleText : parse? ⟨"middle.json"⟩ middleText = .ok middleConfig := by
  cbv

theorem parse?_outerText : parse? ⟨"outer.json"⟩ outerText = .ok outerConfig := by
  cbv

theorem loadFrom_nested_base (h : .found ["base.json"] ∉ chain) :
    loadFrom nested chain ⟨"base.json"⟩ = .ok baseConfig := by
  refine loadFrom_eq_ok_iff.2 ⟨h, baseText, baseConfig, read_of_find? rfl, parse?_baseText,
    baseConfig, rfl, ?_⟩
  cbv

theorem loadFrom_nested_odd (h : .found ["odd.json"] ∉ chain) :
    loadFrom nested chain ⟨"odd.json"⟩ = .error oddError := by
  have hread : nested.read ⟨"odd.json"⟩ = .ok oddText := read_of_find? rfl
  have hnew : nested.target ⟨"odd.json"⟩ ∉ chain := h
  rw [loadFrom_eq, if_neg hnew, hread]
  simp only [parse?_oddText]
  rfl

theorem loadFrom_nested_middle (h : .found ["base.json"] ∉ chain) (h' : .found ["odd.json"] ∉ chain)
    (h'' : .found ["middle.json"] ∉ chain) :
    loadFrom nested chain ⟨"middle.json"⟩ =
      .error (.badBase ⟨"middle.json"⟩ "odd.json" oddError) := by
  have hread : nested.read ⟨"middle.json"⟩ = .ok middleText := read_of_find? rfl
  rw [loadFrom_of_parse? h'' hread parse?_middleText]
  refine bind_eq_error_iff.2 (.inl (extend_eq_error_iff.2
    ⟨["base.json"], "odd.json", [" "], rfl, List.forall_mem_singleton.2 ⟨baseConfig, ?_⟩, ?_⟩))
  · refine base_eq_ok_iff.2 ⟨by decide, loadFrom_nested_base ?_⟩
    exact List.not_mem_cons_of_ne_of_not_mem (by decide) h
  · have hodd : loadFrom nested (nested.target ⟨"middle.json"⟩ :: chain)
        (basePath ⟨"middle.json"⟩ "odd.json") = .error oddError :=
      loadFrom_nested_odd (List.not_mem_cons_of_ne_of_not_mem (by decide) h')
    exact base_of_error (by decide) hodd

theorem load_nested : load nested ⟨"outer.json"⟩ =
    .error (.badBase ⟨"outer.json"⟩ "middle.json"
      (.badBase ⟨"middle.json"⟩ "odd.json" oddError)) := by
  have hread : nested.read ⟨"outer.json"⟩ = .ok outerText := read_of_find? rfl
  rw [load, loadFrom_of_parse? List.not_mem_nil hread parse?_outerText]
  refine bind_eq_error_iff.2 (.inl (extend_eq_error_iff.2
    ⟨["base.json"], "middle.json", ["lost.json"], rfl,
      List.forall_mem_singleton.2 ⟨baseConfig, ?_⟩, ?_⟩))
  · exact base_eq_ok_iff.2 ⟨by decide, loadFrom_nested_base (by decide)⟩
  · have hmiddle : loadFrom nested [nested.target ⟨"outer.json"⟩]
        (basePath ⟨"outer.json"⟩ "middle.json") =
          .error (.badBase ⟨"middle.json"⟩ "odd.json" oddError) :=
      loadFrom_nested_middle (by decide) (by decide) (by decide)
    exact base_of_error (by decide) hmiddle

theorem load_compositional_nested :
    nested.read ⟨"outer.json"⟩ = .ok outerText ∧ parse? ⟨"outer.json"⟩ outerText = .ok outerConfig ∧
    NoCycle (load nested ⟨"outer.json"⟩) ∧
    loadText nested ⟨"outer.json"⟩ outerText = load nested ⟨"outer.json"⟩ ∧
    problem? atEnd nested ⟨"outer.json"⟩ "base.json" = none ∧
    problem? atEnd nested ⟨"outer.json"⟩ "middle.json" =
      some ("Cannot extend 'odd.json' from middle.json: " ++ oddMessage) ∧
    ∃ e, load nested ⟨"outer.json"⟩ = .error e ∧ e.message atEnd =
      "Cannot extend 'middle.json' from outer.json: " ++
        ("Cannot extend 'odd.json' from middle.json: " ++ oddMessage) := by
  have hread : nested.read ⟨"outer.json"⟩ = .ok outerText := read_of_find? rfl
  have hcycle : NoCycle (load nested ⟨"outer.json"⟩) := by
    intro q
    rw [load_nested]
    exact fun h => nomatch h
  have hbase : problem? atEnd nested ⟨"outer.json"⟩ "base.json" = none := by
    have hpath : basePath ⟨"outer.json"⟩ "base.json" = ⟨"base.json"⟩ := by decide
    have hload : load nested (basePath ⟨"outer.json"⟩ "base.json") = .ok baseConfig := by
      rw [hpath, load]
      exact loadFrom_nested_base List.not_mem_nil
    exact problem?_of_ok (by decide) hload
  have hmiddle : problem? atEnd nested ⟨"outer.json"⟩ "middle.json" =
      some ("Cannot extend 'odd.json' from middle.json: " ++ oddMessage) := by
    have hpath : basePath ⟨"outer.json"⟩ "middle.json" = ⟨"middle.json"⟩ := by decide
    have hload : load nested (basePath ⟨"outer.json"⟩ "middle.json") =
        .error (.badBase ⟨"middle.json"⟩ "odd.json" oddError) := by
      rw [hpath, load]
      exact loadFrom_nested_middle List.not_mem_nil List.not_mem_nil List.not_mem_nil
    refine (problem?_of_error (by decide) hload).trans (congrArg some ?_)
    rw [← message_oddError]
    exact congrArg (· ++ oddError.message atEnd) (by decide)
  obtain ⟨htext, -, hcomposes⟩ := load_compositional atEnd nested ⟨"outer.json"⟩
  obtain ⟨e, he, -, hmessage⟩ := (hcomposes _ _ hread parse?_outerText hcycle).refused
    ["base.json"] "middle.json" ["lost.json"] _ rfl (List.forall_mem_singleton.2 hbase) hmiddle
  refine ⟨hread, parse?_outerText, hcycle, htext _ hread, hbase, hmiddle, e, he, ?_⟩
  rw [hmessage]
  exact congrArg (· ++ _) (by decide)

end Config

end ApiLint
