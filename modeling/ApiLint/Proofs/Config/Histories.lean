import ApiLint.Proofs.Config.Overlaying
import ApiLint.Proofs.Config.RuleMembers
import ApiLint.Rule.Registry
import Mathlib.Data.Finset.Card
import Mathlib.Data.List.Dedup

/-!
# Histories of registries and rule sets

Registries and rule sets both answer for a name with what they have been told last, and have the
name once. They differ in its place: a rule that is registered again goes to the end, and a rule
that is set again stays where it was first set. So a rule set is the one that is collected from all
the assignments in its history, whether these came one at a time, from another rule set, or from
the members of an object.
-/

namespace ApiLint

open Json

theorem dedup_concat (xs : List String) (y : String) :
    (xs ++ [y]).dedup = xs.dedup.filter (· ≠ y) ++ [y] := by
  induction xs with
  | nil => simp
  | cons x xs ih =>
    rw [List.cons_append, List.dedup_cons, List.dedup_cons, ih]
    by_cases hxy : x = y
    · subst hxy
      by_cases hx : x ∈ xs <;> simp [hx]
    · by_cases hx : x ∈ xs <;> simp [hx, hxy]

theorem exists_first_of_nodup {A : Type} {name : A → String} {xs : List A}
    (h : (xs.map name).Nodup) {x : A} (hx : x ∈ xs) :
    ∃ before after, xs = before ++ x :: after ∧ ∀ y ∈ before, name y ≠ name x := by
  obtain ⟨before, after, rfl⟩ := List.append_of_mem hx
  rw [List.map_append, List.map_cons, List.nodup_append] at h
  exact ⟨before, after, rfl, fun y hy =>
    h.2.2 (name y) (List.mem_map_of_mem hy) (name x) List.mem_cons_self⟩

namespace Registry

variable {start g : Registry}

theorem get?_register (g : Registry) (r : Rule) (name : String) :
    (g.register r).get? name = if r.name = name then some r else g.get? name := by
  unfold get? register
  rw [List.find?_append]
  by_cases h : r.name = name
  · subst h
    have hnone : (g.rules.filter fun other => other.name ≠ r.name).find?
        (fun other => other.name = r.name) = none := by
      refine List.find?_eq_none.2 fun other ho => ?_
      simpa using (List.mem_filter.1 ho).2
    rw [hnone]
    simp
  · have hsame : ∀ other : Rule, (other.name ≠ r.name ∧ other.name = name) ↔ other.name = name :=
      fun other => ⟨And.right, fun ho => ⟨fun heq => h (heq ▸ ho), ho⟩⟩
    simp [List.find?_filter, h, hsame]

theorem names_foldl_register (hstart : start.names.Nodup) (rs : List Rule) :
    (rs.foldl register start).names = ((start.rules ++ rs).map Rule.name).dedup := by
  induction rs using List.reverseRecOn with
  | nil => simpa [names] using hstart.dedup.symm
  | append_singleton rs r ih =>
    have hhistory : (start.rules ++ (rs ++ [r])).map Rule.name =
        (start.rules ++ rs).map Rule.name ++ [r.name] := by
      simp
    rw [List.foldl_append, List.foldl_cons, List.foldl_nil, names_register, ih, hhistory,
      dedup_concat]

theorem get?_foldl_register (start : Registry) (rs : List Rule) (name : String) :
    (rs.foldl register start).get? name =
      (rs.reverse.find? fun r => r.name = name).or (start.get? name) := by
  induction rs using List.reverseRecOn with
  | nil => rfl
  | append_singleton rs r ih =>
    rw [List.foldl_append, List.foldl_cons, List.foldl_nil, get?_register, ih, List.reverse_concat,
      List.find?_cons]
    by_cases h : r.name = name <;> simp [h]

theorem mem_rules_iff (h : g.names.Nodup) (r : Rule) : r ∈ g.rules ↔ g.get? r.name = some r := by
  constructor
  · intro hr
    obtain ⟨before, after, hrules, hfirst⟩ := exists_first_of_nodup h hr
    exact List.find?_eq_some_iff_append.2
      ⟨by simp, before, after, hrules, fun other ho => by simpa using hfirst other ho⟩
  · exact List.mem_of_find?_eq_some

/-- What is left in a registry of the rules that have been registered since its start. The names are
those of the whole history, each of them where it comes last. -/
structure Registers (start : Registry) (rs : List Rule) (g : Registry) : Prop where
  nodup : g.names.Nodup
  last : ∀ name, g.get? name = (rs.reverse.find? fun r => r.name = name).or (start.get? name)
  order : g.names = ((start.rules ++ rs).map Rule.name).dedup
  listed : ∀ r, r ∈ g.rules ↔ g.get? r.name = some r

theorem registers (hstart : start.names.Nodup) (rs : List Rule) :
    Registers start rs (rs.foldl register start) := by
  have horder := names_foldl_register hstart rs
  have hnodup : (rs.foldl register start).names.Nodup := horder ▸ List.nodup_dedup _
  exact ⟨hnodup, get?_foldl_register start rs, horder, mem_rules_iff hnodup⟩

end Registry

namespace RuleSet

/-- One thing that is done to a rule set. Collecting starts anew with the entries of the rule set,
and more entries behind them. -/
inductive Edit where
  | set (name : String) (s : Setting)
  | merge (other : RuleSet)
  | collect (more : List (String × Setting))

def Edit.apply (rs : RuleSet) : Edit → RuleSet
  | set name s => rs.set name s
  | merge other => rs.merge other
  | collect more => ofList (rs.entries ++ more)

def Edit.assigned : Edit → List (String × Setting)
  | set name s => [(name, s)]
  | merge other => other.entries
  | collect more => more

def assigned (ms : Members) : List (String × Setting) :=
  ms.filterMap fun m => (Setting.ofValue? m.2).toOption.map fun s => (m.1, s)

/-- What is left in a rule set of the assignments in its history. The names are those of the whole
history, each of them where it comes first. -/
structure Records (history : List (String × Setting)) (rs : RuleSet) : Prop where
  nodup : rs.names.Nodup
  last : ∀ name, rs.get? name = history.reverse.lookup name
  size : rs.size = (history.map (·.1)).toFinset.card
  order : rs.names = (history.map (·.1)).eraseDups
  listed : ∀ e, e ∈ rs.entries ↔ rs.get? e.1 = some e.2

theorem mem_entries_iff {rs : RuleSet} (h : rs.names.Nodup) (e : String × Setting) :
    e ∈ rs.entries ↔ rs.get? e.1 = some e.2 := by
  constructor
  · intro he
    obtain ⟨before, after, hentries, hfirst⟩ := exists_first_of_nodup h he
    exact List.lookup_eq_some_iff.2
      ⟨before, after, hentries, fun other ho => by simpa using (hfirst other ho).symm⟩
  · intro he
    obtain ⟨before, after, hentries, -⟩ := List.lookup_eq_some_iff.1 he
    simp [hentries]

theorem ofList_append (es ds : List (String × Setting)) :
    ofList (es ++ ds) = (ofList es).merge ⟨ds⟩ :=
  List.foldl_append

theorem nodup_names_ofList (es : List (String × Setting)) : (ofList es).names.Nodup := by
  have hempty : empty.names.Nodup := List.nodup_nil
  exact nodup_names_merge hempty ⟨es⟩

theorem names_ofList (es : List (String × Setting)) :
    (ofList es).names = (es.map (·.1)).eraseDups := by
  rw [ofList_eq_merge, names_merge]
  exact Ignore.union_eraseDups [] _

theorem get?_ofList (es : List (String × Setting)) (name : String) :
    (ofList es).get? name = es.reverse.lookup name := by
  induction es using List.reverseRecOn with
  | nil => rfl
  | append_singleton es e ih =>
    rw [ofList_append, List.reverse_concat, lookup_cons_eq, ← ih]
    exact get?_set (ofList es) e.1 e.2 name

theorem ofList_entries {rs : RuleSet} (h : rs.names.Nodup) : ofList rs.entries = rs := by
  refine ext_of_get? h ?_ fun name => ?_
  · rw [names_ofList]
    exact eraseDups_of_nodup h
  · rw [ofList_eq_merge]
    exact (get?_merge empty h name).trans Option.or_none

theorem records_ofList (es : List (String × Setting)) : Records es (ofList es) := by
  have hnodup := nodup_names_ofList es
  have hsame : (es.map (·.1)).toFinset = (ofList es).names.toFinset := by
    ext name
    rw [names_ofList, List.mem_toFinset, List.mem_toFinset, List.mem_eraseDups]
  refine ⟨hnodup, get?_ofList es, ?_, names_ofList es, mem_entries_iff hnodup⟩
  rw [hsame, List.toFinset_card_of_nodup hnodup, names, List.length_map, size]

theorem apply_ofList (es : List (String × Setting)) (edit : Edit) :
    edit.apply (ofList es) = ofList (es ++ edit.assigned) := by
  rw [ofList_append]
  cases edit with
  | set name s => rfl
  | merge other => rfl
  | collect more =>
    rw [Edit.apply, ofList_append, ofList_entries (nodup_names_ofList es)]
    rfl

theorem foldl_apply_ofList (es : List (String × Setting)) (edits : List Edit) :
    edits.foldl Edit.apply (ofList es) = ofList (es ++ edits.flatMap Edit.assigned) := by
  induction edits generalizing es with
  | nil => simp
  | cons edit edits ih =>
    rw [List.foldl_cons, apply_ofList, ih, List.flatMap_cons, List.append_assoc]

theorem assigned_toMembers (rs : RuleSet) : assigned rs.toMembers = rs.entries := by
  have hentry : ∀ e : String × Setting,
      ((Setting.ofValue? e.2.toValue).toOption.map fun s => (e.1, s)) = some e := by
    intro e
    rw [Setting.ofValue?_toValue]
    rfl
  simp [assigned, toMembers, List.filterMap_map, hentry]

theorem ofMembers?_eq_ofList {ms : Members} {rs : RuleSet} (hms : ms.keys.Nodup)
    (h : ofMembers? ms = .ok rs) : rs = ofList (assigned ms) := by
  obtain rfl := ofMembers?_eq_ok_iff.1 h
  rw [assigned_toMembers, ofList_entries (keys_toMembers rs ▸ hms)]

theorem records_foldl (es : List (String × Setting)) (edits : List Edit) :
    Records (es ++ edits.flatMap Edit.assigned) (edits.foldl Edit.apply (ofList es)) := by
  rw [foldl_apply_ofList]
  exact records_ofList _

end RuleSet

/-- A registry starts empty or with the built-in rules, and a rule set starts empty or is read from
the members of an object. -/
theorem histories_resolved {ms : Members} {parsed : RuleSet} (hms : ms.keys.Nodup)
    (hparsed : RuleSet.ofMembers? ms = .ok parsed) (rs : List Rule) (edits : List RuleSet.Edit) :
    Registry.Registers .empty rs (rs.foldl Registry.register .empty) ∧
    Registry.Registers .builtin rs (rs.foldl Registry.register .builtin) ∧
    RuleSet.Records (edits.flatMap RuleSet.Edit.assigned)
      (edits.foldl RuleSet.Edit.apply .empty) ∧
    RuleSet.Records (RuleSet.assigned ms ++ edits.flatMap RuleSet.Edit.assigned)
      (edits.foldl RuleSet.Edit.apply parsed) := by
  have hempty : Registry.empty.names.Nodup := List.nodup_nil
  refine ⟨Registry.registers hempty rs, Registry.registers Registry.nodup_names_builtin rs,
    RuleSet.records_foldl [] edits, ?_⟩
  rw [RuleSet.ofMembers?_eq_ofList hms hparsed]
  exact RuleSet.records_foldl _ edits

namespace RuleSet

def undecided : Members := [("b", .bool true), ("a", .array [.string "camel"])]

def ofUndecided : RuleSet := ⟨[("b", .enabled), ("a", .custom "camel" none)]⟩

def secondThoughts : List Edit :=
  [.set "a" .disabled, .merge ⟨[("c", .enabled), ("b", .disabled)]⟩, .collect [("a", .enabled)]]

theorem histories_resolved_undecided :
    undecided.keys.Nodup ∧ ofMembers? undecided = .ok ofUndecided ∧
    (secondThoughts.foldl Edit.apply ofUndecided).entries =
      [("b", .disabled), ("a", .enabled), ("c", .enabled)] ∧
    Registry.Registers .builtin [Rule.noTrailingSlash]
      (Registry.builtin.register Rule.noTrailingSlash) ∧
    Records (assigned undecided ++ secondThoughts.flatMap Edit.assigned)
      (secondThoughts.foldl Edit.apply ofUndecided) := by
  have hkeys : undecided.keys.Nodup := by decide
  have hparsed : ofMembers? undecided = .ok ofUndecided := rfl
  obtain ⟨-, hbuiltin, -, hrecords⟩ :=
    histories_resolved hkeys hparsed [Rule.noTrailingSlash] secondThoughts
  exact ⟨hkeys, hparsed, rfl, hbuiltin, hrecords⟩

end RuleSet

end ApiLint
