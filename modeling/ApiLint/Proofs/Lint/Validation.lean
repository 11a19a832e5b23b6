import ApiLint.Proofs.Lint.Operations

/-!
# Settings of running rules

A rule runs only with a setting that it accepts, wherever the setting comes from. So what a rule
does with other settings never counts: the casing of properties is always the one that is asked for,
all texts that are to be ignored are, and what is ignored in the names of definitions are single
characters.
-/

namespace ApiLint

open Json Walk Walked

namespace Setting

def Lists (setting : Setting) (key : String) (texts : List String) : Prop :=
  setting.option? key = some (.ofTexts texts) ∨ setting.option? key = none ∧ texts = []

variable {setting : Setting} {key : String} {texts : List String}

theorem Lists.textsOption_eq (h : setting.Lists key texts) : setting.textsOption key = texts := by
  unfold textsOption
  rcases h with h | ⟨h, rfl⟩
  · simp only [h, Option.bind_eq_bind, Option.bind_some, Value.ofTexts, Value.items?,
      List.filterMap_map]
    exact List.filterMap_some
  · simp [h]

end Setting

namespace Rule

variable {setting : Setting}

theorem primary?_of_casingOf? {casing : Casing} (h : casingOf? setting = some casing) :
    setting.primary? = some casing.name := by
  obtain ⟨primary, hprimary, hcasing⟩ := Option.bind_eq_some_iff.1 h
  have hname : casing.name = primary := by simpa using List.find?_some hcasing
  rw [hprimary, hname]

theorem casingOf?_of_primary? {casing : Casing} (h : setting.primary? = some casing.name) :
    casingOf? setting = some casing := by
  rw [casingOf?, h]
  exact Casing.ofName?_name casing

theorem exists_of_namesCasing (h : namesCasing setting = true) :
    ∃ casing ignored, setting.primary? = some (Casing.name casing) ∧
      setting.Lists "ignore" ignored := by
  rw [namesCasing, Bool.and_eq_true] at h
  obtain ⟨hcasing, hignored⟩ := h
  obtain ⟨casing, hcasing⟩ := Option.isSome_iff_exists.1 hcasing
  refine ⟨casing, ?_⟩
  have hprimary := primary?_of_casingOf? hcasing
  split at hignored
  case h_1 hnone => exact ⟨[], hprimary, .inr ⟨hnone, rfl⟩⟩
  case h_2 items hitems =>
    have htext : ∀ item ∈ items, ∃ text, Value.string text = item := by
      intro item hitem
      have hsome := List.all_eq_true.1 hignored item hitem
      cases item with
      | string text => exact ⟨text, rfl⟩
      | _ => cases hsome
    have htexts : items ∈ Set.range (List.map Value.string) := Set.range_list_map _ ▸ htext
    obtain ⟨texts, rfl⟩ := htexts
    exact ⟨texts, hprimary, .inl hitems⟩
  case h_3 => cases hignored

theorem exists_of_ignoresCharacters (h : ignoresCharacters setting = true) :
    ∃ chars : List Char, setting.Lists "ignore" (chars.map String.singleton) := by
  unfold ignoresCharacters at h
  split at h
  case h_1 hnone => exact ⟨[], .inr ⟨hnone, rfl⟩⟩
  case h_2 items hitems =>
    have hchar : ∀ item ∈ items, ∃ c, Value.string (String.singleton c) = item := by
      intro item hitem
      have hone := List.all_eq_true.1 h item hitem
      cases item with
      | string text =>
        have hlength : text.toList.length = 1 := by
          rw [String.length_toList]
          exact eq_of_beq hone
        obtain ⟨c, hc⟩ := List.length_eq_one_iff.1 hlength
        refine ⟨c, congrArg Value.string (String.toList_inj.1 ?_)⟩
        rw [hc, String.toList_singleton]
      | _ => cases hone
    have hchars : items ∈ Set.range (List.map fun c => Value.string (String.singleton c)) :=
      Set.range_list_map _ ▸ hchar
    obtain ⟨chars, rfl⟩ := hchars
    refine ⟨chars, .inl ?_⟩
    rw [hitems, Value.ofTexts, List.map_map]
    rfl
  case h_3 => cases h

def miscased (casing : Casing) (ignored : List String) (location : Location)
    (properties : Members) : List Finding :=
  (properties.keys.filter fun key => ¬ casing.admits key ∧ key ∉ ignored).map fun key =>
    ⟨"object-prop-casing", objectPropCasing.templateText "casing" (casingData key casing),
      location.child key, some "casing", some (casingData key casing)⟩

def nonLatin (ignored : List Char) (location : Location) (definitions : Members) : List Finding :=
  (definitions.keys.filter fun name => ∃ c ∈ name.toList, ¬ c.isAlphanum ∧ c ∉ ignored).map
    fun name => .plain "latin-definitions-only"
      ("Definition name \"" ++ name ++ "\" contains non latin characters.") (location.child name)

theorem isLatin_iff {chars : List Char} {c : Char} :
    isLatin (chars.map String.singleton) c ↔ c.isAlphanum ∨ c ∈ chars := by
  simp [isLatin, List.any_map]

variable {ignored : List String} {chars : List Char} {casing : Casing} {l : Location} {node : Value}

theorem finding_checkProperties (hc : setting.primary? = some casing.name)
    (hi : setting.Lists "ignore" ignored) :
    (checkProperties setting l node).map objectPropCasing.finding =
      miscased casing ignored (l.child "properties")
        ((node.get? "properties" >>= Value.members?).getD []) := by
  simp only [checkProperties, casingOf?_of_primary? hc, Option.getD_some, hi.textsOption_eq,
    List.map_map, miscased]
  have hkey : ∀ key, (!(casing.admits key || ignored.contains key)) =
      decide (¬ casing.admits key ∧ key ∉ ignored) := by
    intro key
    rw [Bool.eq_iff_iff, decide_eq_true_eq]
    simp
  simp only [hkey]
  rfl

theorem finding_checkNames (hi : setting.Lists "ignore" (chars.map String.singleton))
    (definitions : Members) :
    (checkNames setting l definitions).map latinDefinitionsOnly.finding =
      nonLatin chars l definitions := by
  simp only [checkNames, hi.textsOption_eq, List.map_map, nonLatin]
  have hname : ∀ name : String, (!name.toList.all (isLatin (chars.map String.singleton))) =
      decide (∃ c ∈ name.toList, ¬ c.isAlphanum ∧ c ∉ chars) := by
    intro name
    rw [Bool.eq_iff_iff, decide_eq_true_eq, Bool.not_eq_true', ← Bool.not_eq_true,
      List.all_eq_true]
    simp only [isLatin_iff]
    push Not
    rfl
  simp only [hname]
  rfl

end Rule

namespace Walked

def propertiesAt {K : Type} (v : Visit K) : Location × Members :=
  (v.location.child "properties", (v.node.get? "properties" >>= Value.members?).getD [])

def properties : Walked → List (Location × Members)
  | .swagger visits => (ofKind visits .schema).map propertiesAt
  | .openApi visits => (ofKind visits .schema).map propertiesAt

def definitions : Walked → List (Location × Members)
  | .swagger visits =>
    (ofKind visits .definitions).map fun v => (v.location, v.node.members?.getD [])
  | .openApi visits => (ofKind visits .components).map fun v =>
    (v.location.child "schemas", (v.node.get? "schemas" >>= Value.members?).getD [])

end Walked

namespace Rule

variable {setting : Setting} {ignored : List String} {chars : List Char} {casing : Casing}

theorem reports_objectPropCasing (hc : setting.primary? = some casing.name)
    (hi : setting.Lists "ignore" ignored) (walked : Walked) :
    (objectPropCasing.reports setting walked).map objectPropCasing.finding =
      walked.properties.flatMap fun p => miscased casing ignored p.1 p.2 := by
  cases walked with
  | swagger visits | openApi visits =>
    simp only [reports, Subscription.reports, objectPropCasing, Subscription.of, List.flatMap_cons,
      List.flatMap_nil, List.append_nil, List.map_flatMap, properties, List.flatMap_map]
    exact List.flatMap_congr fun v _ => finding_checkProperties hc hi

theorem reports_latinDefinitionsOnly (hi : setting.Lists "ignore" (chars.map String.singleton))
    (walked : Walked) :
    (latinDefinitionsOnly.reports setting walked).map latinDefinitionsOnly.finding =
      walked.definitions.flatMap fun d => nonLatin chars d.1 d.2 := by
  cases walked with
  | swagger visits | openApi visits =>
    simp only [reports, Subscription.reports, latinDefinitionsOnly, Subscription.of,
      List.flatMap_cons, List.flatMap_nil, List.append_nil, List.map_flatMap, definitions,
      List.flatMap_map]
    exact List.flatMap_congr fun v _ => finding_checkNames hi _

end Rule

/-- The casing and the texts to ignore that a setting asks for, and nothing that it says of them is
passed over. -/
structure Rule.AsksFor (setting : Setting) (casing : Casing) (ignored : List String) : Prop where
  primary : setting.primary? = some casing.name
  casing : casingOf? setting = some casing
  listed : setting.Lists "ignore" ignored
  unskipped : setting.textsOption "ignore" = ignored

/-- The setting asks for these characters to be ignored. -/
structure Rule.Admits (setting : Setting) (chars : List Char) : Prop where
  listed : setting.Lists "ignore" (chars.map String.singleton)
  unskipped : setting.textsOption "ignore" = chars.map String.singleton

namespace Linter

variable {l : Linter} {document : Value} {walked walked' : Walked} {r : Rule} {setting : Setting}

theorem Runs.accepts (h : l.Runs r setting) : r.accepts setting = true := by
  obtain ⟨-, s, -, -, ha⟩ := h
  exact ha

theorem findingsOf_of_runs (hw : l.Walks document walked) (hn : l.config.rules.names.Nodup)
    (hcore : r.name ≠ Finding.coreName) (hr : l.Runs r setting) :
    l.findingsOf r document = (r.reports setting walked).map r.finding := by
  obtain ⟨hget, s, he, hs, ha⟩ := hr
  rw [findingsOf, filter_lint hw hn hcore hget he, block_of_setting hget hs, if_pos ha]

theorem Walks.unique (h : l.Walks document walked) (h' : l.Walks document walked') :
    walked' = walked := by
  obtain ⟨dialect, hd, hw⟩ := h
  obtain ⟨dialect', hd', hw'⟩ := h'
  obtain rfl := Option.some.inj (hd'.symm.trans hd)
  exact Except.ok.inj (hw'.symm.trans hw)

/-- What is known of the settings of two rules whenever they run, and what they find with them. -/
structure Protects (l : Linter) (document : Value) (walked : Walked) : Prop where
  /-- A rule finds nothing without such a run. -/
  running : ∀ f ∈ l.lint document, General f ∨ ∃ r setting, l.Runs r setting ∧
    ∃ report ∈ r.reports setting walked, f = r.finding report
  casing : ∀ setting, l.Runs Rule.objectPropCasing setting → ∃ casing ignored,
    Rule.AsksFor setting casing ignored ∧
    (Rule.objectPropCasing.reports setting walked).map Rule.objectPropCasing.finding =
      walked.properties.flatMap (fun p => Rule.miscased casing ignored p.1 p.2) ∧
    (l.config.rules.names.Nodup → l.findingsOf Rule.objectPropCasing document =
      walked.properties.flatMap fun p => Rule.miscased casing ignored p.1 p.2)
  characters : ∀ setting, l.Runs Rule.latinDefinitionsOnly setting → ∃ chars,
    Rule.Admits setting chars ∧
    (Rule.latinDefinitionsOnly.reports setting walked).map Rule.latinDefinitionsOnly.finding =
      walked.definitions.flatMap (fun d => Rule.nonLatin chars d.1 d.2) ∧
    (l.config.rules.names.Nodup → l.findingsOf Rule.latinDefinitionsOnly document =
      walked.definitions.flatMap fun d => Rule.nonLatin chars d.1 d.2)

/-- Rules run with settings that they understand, and find what these ask for. -/
theorem protects_running_rules (hw : l.Walks document walked) : l.Protects document walked where
  running f hf := by
    refine (general_or_report_of_mem_lint hf).imp_right ?_
    rintro ⟨walked', hw', r, setting, hr, hreport⟩
    obtain rfl := hw.unique hw'
    exact ⟨r, setting, hr, hreport⟩
  casing setting hr := by
    obtain ⟨casing, ignored, hprimary, hlisted⟩ := Rule.exists_of_namesCasing hr.accepts
    have hreports := Rule.reports_objectPropCasing hprimary hlisted walked
    refine ⟨casing, ignored, ⟨hprimary, Rule.casingOf?_of_primary? hprimary, hlisted,
      hlisted.textsOption_eq⟩, hreports, fun hn => ?_⟩
    rw [findingsOf_of_runs hw hn (by decide) hr, hreports]
  characters setting hr := by
    obtain ⟨chars, hlisted⟩ := Rule.exists_of_ignoresCharacters hr.accepts
    have hreports := Rule.reports_latinDefinitionsOnly hlisted walked
    refine ⟨chars, ⟨hlisted, hlisted.textsOption_eq⟩, hreports, fun hn => ?_⟩
    rw [findingsOf_of_runs hw hn (by decide) hr, hreports]

def shopSchema : Value :=
  .object [("properties", .object [("petId", .object []), ("ID", .object [])])]

def petShop : Value :=
  .object [("swagger", .string "2.0"), ("info", .object []), ("paths", .object []),
    ("definitions", .object [("pet-shop", shopSchema), ("pet_shop", .object [])])]

def shopVisits : List (Visit Swagger.Kind) :=
  [⟨.swagger, .root, petShop⟩, ⟨.info, ⟨["info"]⟩, .object []⟩, ⟨.paths, ⟨["paths"]⟩, .object []⟩,
    ⟨.definitions, ⟨["definitions"]⟩,
      .object [("pet-shop", shopSchema), ("pet_shop", .object [])]⟩,
    ⟨.schema, ⟨["definitions", "pet-shop"]⟩, shopSchema⟩,
    ⟨.schema, ⟨["definitions", "pet-shop", "properties", "petId"]⟩, .object []⟩,
    ⟨.schema, ⟨["definitions", "pet-shop", "properties", "ID"]⟩, .object []⟩,
    ⟨.schema, ⟨["definitions", "pet_shop"]⟩, .object []⟩]

def snakeSetting : Setting := .custom "snake" (some [("ignore", .array [.string "ID"])])

def dashSetting : Setting := .custom "" (some [("ignore", .array [.string "-"])])

def shopLinter : Linter :=
  ⟨⟨[], ⟨[("object-prop-casing", .enabled), ("latin-definitions-only", dashSetting)]⟩, .empty⟩,
    ⟨[("object-prop-casing", snakeSetting)]⟩, .builtin⟩

theorem walks_petShop : shopLinter.Walks petShop (.swagger shopVisits) := by
  have hwalk : Swagger.grammar.walk petShop = .ok shopVisits := by
    refine walk_of_no_references (shopVisits.take 4) [] shopVisits
      [(.definitions, "pet_shop"), (.definitions, "pet-shop")] ?_ ?_ ?_
    all_goals cbv
  have hfilter : shopLinter.config.ignore.filter .swagger petShop = petShop := by cbv
  refine ⟨.swagger, by cbv, ?_⟩
  rw [hfilter, Walked.ofDocument?, hwalk]
  rfl

theorem protects_running_rules_petShop : shopLinter.Walks petShop (.swagger shopVisits) ∧
    shopLinter.Runs Rule.objectPropCasing snakeSetting ∧
    shopLinter.Runs Rule.latinDefinitionsOnly dashSetting ∧
    (shopLinter.findingsOf Rule.objectPropCasing petShop).map Finding.location =
      [⟨["definitions", "pet-shop", "properties", "petId"]⟩] ∧
    shopLinter.findingsOf Rule.latinDefinitionsOnly petShop =
      [.plain "latin-definitions-only"
        "Definition name \"pet_shop\" contains non latin characters."
        ⟨["definitions", "pet_shop"]⟩] := by
  have hcasing : shopLinter.Runs Rule.objectPropCasing snakeSetting :=
    ⟨rfl, .enabled, List.mem_cons_self, rfl, rfl⟩
  have hlatin : shopLinter.Runs Rule.latinDefinitionsOnly dashSetting :=
    ⟨rfl, dashSetting, List.mem_cons_of_mem _ List.mem_cons_self, rfl, rfl⟩
  have hn : shopLinter.config.rules.names.Nodup := by decide
  have hprotects := protects_running_rules walks_petShop
  refine ⟨walks_petShop, hcasing, hlatin, ?_, ?_⟩
  · obtain ⟨casing, ignored, hasks, -, hfindings⟩ := hprotects.casing snakeSetting hcasing
    obtain rfl : casing = .snake := Option.some.inj (hasks.casing.symm.trans rfl)
    obtain rfl : ignored = ["ID"] := hasks.unskipped.symm
    rw [hfindings hn]
    cbv
  · obtain ⟨chars, hadmits, -, hfindings⟩ := hprotects.characters dashSetting hlatin
    obtain rfl : chars = ['-'] := by
      have hsingleton : Function.Injective String.singleton := fun c d h => by
        simpa using congrArg String.toList h
      exact List.map_injective_iff.2 hsingleton hadmits.unskipped.symm
    have hdefinitions : (Walked.swagger shopVisits).definitions =
        [(⟨["definitions"]⟩, [("pet-shop", shopSchema), ("pet_shop", .object [])])] := by
      cbv
    rw [hfindings hn, hdefinitions]
    simp [Rule.nonLatin, Members.keys, Location.child]

end Linter

end ApiLint
