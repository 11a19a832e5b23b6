import ApiLint.Proofs.Config.Merging

/-!
# Configurations on top of one another

Putting one configuration on top of another can be done in any grouping: a rule set is determined by
the order of its rules and by their settings, an ignore list by its order alone, and both orders are
those of unions. The rule sets have one entry for each rule.
-/

namespace ApiLint

namespace Ignore

theorem union_of_subset {xs ys : List String} (h : ∀ y ∈ ys, y ∈ xs) : union xs ys = xs := by
  induction ys with
  | nil => rfl
  | cons y ys ih =>
    obtain ⟨hy, hys⟩ := List.forall_mem_cons.1 h
    rw [union_cons, if_pos hy, ih hys]

theorem union_self (xs : List String) : union xs xs = xs := union_of_subset fun _ h => h

theorem union_concat (xs ys : List String) (y : String) :
    union xs (ys ++ [y]) = if y ∈ union xs ys then union xs ys else union xs ys ++ [y] := by
  by_cases hy : y ∈ union xs ys <;> simp_all [union]

theorem union_assoc (xs ys zs : List String) :
    union (union xs ys) zs = union xs (union ys zs) := by
  induction zs generalizing ys with
  | nil => rfl
  | cons z zs ih =>
    have hstep : union xs (if z ∈ ys then ys else ys ++ [z]) =
        if z ∈ union xs ys then union xs ys else union xs ys ++ [z] := by
      by_cases hz : z ∈ ys
      · rw [if_pos hz, if_pos (mem_union.2 (.inr hz))]
      · rw [if_neg hz, union_concat]
    rw [union_cons, union_cons, ← hstep, ih]

theorem union_eq_append (xs ys : List String) :
    union xs ys = xs ++ (ys.filter (· ∉ xs)).eraseDups := by
  -- From the end, since both sides look back at the names before.
  induction ys using List.reverseRecOn with
  | nil => simp [union]
  | append_singleton ys y ih =>
    rw [union_concat, ih, List.filter_append]
    by_cases hx : y ∈ xs
    · simp [hx]
    · have hlast : [y].filter (· ∉ xs) = [y] := by simp [hx]
      rw [hlast, eraseDups_concat]
      by_cases hy : y ∈ ys <;> simp [hx, hy]

theorem merge_self (i : Ignore) : i.merge i = i := by
  simp only [merge, union_self]

theorem merge_assoc (i j k : Ignore) : (i.merge j).merge k = i.merge (j.merge k) := by
  simp only [merge, union_assoc]

end Ignore

namespace RuleSet

variable {rs other third : RuleSet}

theorem eq_of_lookup_eq {es ds : List (String × Setting)} (h : (es.map (·.1)).Nodup)
    (hnames : ds.map (·.1) = es.map (·.1)) (hlookup : ∀ name, ds.lookup name = es.lookup name) :
    ds = es := by
  induction es generalizing ds with
  | nil => exact List.map_eq_nil_iff.1 hnames
  | cons e es ih =>
    obtain ⟨rule, s⟩ := e
    obtain ⟨⟨rule', s'⟩, ds, rfl, hrule, hrest⟩ := List.map_eq_cons_iff.1 hnames
    obtain rfl : rule' = rule := hrule
    obtain ⟨hfresh, hes⟩ := List.nodup_cons.1 h
    -- The first entry answers for its own rule only, for which the others have no answer.
    have hsetting : s' = s := by
      have hfirst := hlookup rule'
      rw [lookup_cons_eq, lookup_cons_eq, if_pos rfl, if_pos rfl] at hfirst
      exact Option.some.inj hfirst
    have htail : ds = es := by
      refine ih hes hrest fun name => ?_
      by_cases hname : name = rule'
      · subst hname
        rw [lookup_eq_none hfresh, lookup_eq_none (hrest ▸ hfresh)]
      · have hother := hlookup name
        rwa [lookup_cons_eq, lookup_cons_eq, if_neg hname, if_neg hname] at hother
    rw [hsetting, htail]

theorem ext_of_get? (h : rs.names.Nodup) (hnames : other.names = rs.names)
    (hget : ∀ name, other.get? name = rs.get? name) : other = rs := by
  cases rs
  cases other
  exact congrArg mk (eq_of_lookup_eq h hnames hget)

theorem merge_self (h : rs.names.Nodup) : rs.merge rs = rs := by
  refine ext_of_get? h ?_ fun name => ?_
  · rw [names_merge, Ignore.union_self]
  · rw [get?_merge rs h, Option.or_self]

theorem merge_assoc (h : rs.names.Nodup) (ho : other.names.Nodup) (ht : third.names.Nodup) :
    (rs.merge other).merge third = rs.merge (other.merge third) := by
  have hinner : (other.merge third).names.Nodup := nodup_names_merge ho third
  refine ext_of_get? (nodup_names_merge h _) ?_ fun name => ?_
  · simp only [names_merge, Ignore.union_assoc]
  · rw [get?_merge _ ht, get?_merge _ ho, get?_merge _ hinner, get?_merge _ ht, Option.or_assoc]

theorem names_merge_eq_append (rs : RuleSet) (ho : other.names.Nodup) :
    (rs.merge other).names = rs.names ++ other.names.filter (· ∉ rs.names) := by
  rw [names_merge, Ignore.union_eq_append, eraseDups_of_nodup (ho.filter _)]

end RuleSet

namespace Config

/-- What a configuration says when another is put on top of it. -/
structure OnTop (lower upper c : Config) : Prop where
  bases : c.bases = lower.bases
  setting : ∀ rule, c.rules.get? rule = (upper.rules.get? rule).or (lower.rules.get? rule)
  names : c.rules.names =
    lower.rules.names ++ upper.rules.names.filter (· ∉ lower.rules.names)
  ignored : ∀ part, c.ignore.names part = lower.ignore.names part ++
    ((upper.ignore.names part).filter (· ∉ lower.ignore.names part)).eraseDups

variable {a b c : Config}

theorem onTop_merge (a : Config) (hb : b.rules.names.Nodup) : OnTop a b (a.merge b) where
  bases := rfl
  setting := RuleSet.get?_merge a.rules hb
  names := RuleSet.names_merge_eq_append a.rules hb
  ignored part := (Ignore.names_merge a.ignore b.ignore part).trans (Ignore.union_eq_append _ _)

theorem merge_self (ha : a.rules.names.Nodup) : a.merge a = a := by
  unfold merge
  rw [RuleSet.merge_self ha, Ignore.merge_self]

theorem merge_assoc (ha : a.rules.names.Nodup) (hb : b.rules.names.Nodup)
    (hc : c.rules.names.Nodup) : (a.merge b).merge c = a.merge (b.merge c) := by
  unfold merge
  rw [RuleSet.merge_assoc ha hb hc, Ignore.merge_assoc]

/-- Merging is an ordered overlay: it may be grouped in any way, and says of each rule and of each
list what the upper configuration adds to the lower one. -/
theorem merge_orderedOverlay (ha : a.rules.names.Nodup) (hb : b.rules.names.Nodup)
    (hc : c.rules.names.Nodup) : (a.merge b).merge c = a.merge (b.merge c) ∧
      a.merge empty = a ∧ a.merge a = a ∧ OnTop a b (a.merge b) :=
  ⟨merge_assoc ha hb hc, rfl, merge_self ha, onTop_merge a hb⟩

def ground : Config where
  bases := ["base.json"]
  rules := ⟨[("first", .enabled), ("second", .custom "camel" none)]⟩
  ignore := ⟨["Pet", "Pet"], ["/pets"], fun | .schemas => ["Pet"] | _ => []⟩

def middle : Config where
  bases := []
  rules := ⟨[("third", .enabled), ("first", .disabled)]⟩
  ignore := ⟨["Owner", "Pet", "Owner"], [], fun | .headers => ["Page"] | _ => []⟩

def summit : Config where
  bases := ["lost.json"]
  rules := ⟨[("fourth", .enabled), ("third", .disabled)]⟩
  ignore := ⟨["Owner", "Toy"], ["/toys", "/pets"], fun | .schemas => ["Page", "Pet"] | _ => []⟩

theorem merge_orderedOverlay_summit :
    ground.rules.names.Nodup ∧ middle.rules.names.Nodup ∧ summit.rules.names.Nodup ∧
    ((ground.merge middle).merge summit).rules =
      ⟨[("first", .disabled), ("second", .custom "camel" none), ("third", .disabled),
        ("fourth", .enabled)]⟩ ∧
    ((ground.merge middle).merge summit).ignore.definitions = ["Pet", "Pet", "Owner", "Toy"] ∧
    ((ground.merge middle).merge summit).ignore.components .schemas = ["Pet", "Page"] ∧
    ((ground.merge middle).merge summit).ignore.components .headers = ["Page"] ∧
    (ground.merge middle).merge summit = ground.merge (middle.merge summit) ∧
    ground.merge empty = ground ∧ ground.merge ground = ground ∧
    OnTop ground middle (ground.merge middle) := by
  have hground : ground.rules.names.Nodup := by decide
  have hmiddle : middle.rules.names.Nodup := by decide
  have hsummit : summit.rules.names.Nodup := by decide
  refine ⟨hground, hmiddle, hsummit, rfl, by decide, by decide, by decide, ?_⟩
  exact merge_orderedOverlay hground hmiddle hsummit

end Config

end ApiLint
