import ApiLint.Document.Filter
import ApiLint.Document.Source
import ApiLint.Proofs.Json.Distinct
import ApiLint.Proofs.Outcome

/-!
# Distinct documents

The documents that are walked are distinct: the readers of both formats build distinct values, and
taking out what is ignored leaves them so.
-/

namespace ApiLint

open Json

namespace Yaml.Scalar

variable {s : String} {v : Value}

theorem distinct_intValue? {n : Int} (h : intValue? n = some v) : v.Distinct := by
  unfold intValue? at h
  split at h
  case isTrue => cases h; exact .number _
  case isFalse => cases h

theorem distinct_float? (h : float? s = some v) : v.Distinct := by
  unfold float? at h
  split at h
  case isTrue => cases h; exact .null
  case isFalse =>
    obtain ⟨x, -, rfl⟩ := Option.map_eq_some_iff.1 h
    exact .number _

theorem distinct_plainValue? (h : plainValue? s = some v) : v.Distinct := by
  unfold plainValue? at h
  split at h
  case isTrue => cases h; exact .null
  case isFalse =>
    split at h
    case h_1 b hb => cases h; exact .bool b
    case h_2 =>
      split at h
      case h_1 n hn => exact distinct_intValue? h
      case h_2 =>
        split at h
        case isTrue => cases h; exact .string s
        case isFalse =>
          cases h
          cases hf : float? s with
          | none => exact .string s
          | some w => exact distinct_float? hf

theorem distinct_untaggedValue? {plain : Bool} (h : untaggedValue? s plain = some v) :
    v.Distinct := by
  unfold untaggedValue? at h
  split at h
  case isTrue => exact distinct_plainValue? h
  case isFalse => cases h; exact .string s

theorem distinct_value? {tag : Option Tag} {plain : Bool} (h : value? tag s plain = some v) :
    v.Distinct := by
  unfold value? at h
  split at h
  case h_1 => exact distinct_untaggedValue? h
  case h_2 t =>
    split_ifs at h
    · obtain ⟨b, -, rfl⟩ := Option.map_eq_some_iff.1 h
      exact .bool b
    · obtain ⟨n, -, hn⟩ := Option.bind_eq_some_iff.1 h
      exact distinct_intValue? hn
    · exact distinct_float? h
    · cases h
      exact .null
    · exact distinct_untaggedValue? h
    · cases h
      exact .string s

end Yaml.Scalar

namespace Yaml.Node

variable {A B : Type}

def Gives (x : Follow A) (p : A → Prop) : Prop :=
  ∀ left a left', x.run left = some (a, left') → p a

namespace Gives

variable {x : Follow A} {p : A → Prop}

theorem pure {a : A} (h : p a) : Gives (Pure.pure a) p := by
  intro left b left' hb
  cases hb
  exact h

theorem failure : Gives failure p := by
  intro left a left' h
  cases h

theorem lift {o : Option A} (h : ∀ a, o = some a → p a) : Gives (o : Follow A) p := by
  intro left a left' ha
  obtain ⟨b, hb, hab⟩ := Option.bind_eq_some_iff.1 ha
  cases hab
  exact h a hb

theorem bind {f : A → Follow B} {q : B → Prop} (hx : Gives x p)
    (hf : ∀ a, p a → Gives (f a) q) : Gives (x >>= f) q := by
  intro left b left' h
  rw [StateT.run_bind] at h
  obtain ⟨⟨a, between⟩, ha, hb⟩ := Option.bind_eq_some_iff.1 h
  exact hf a (hx left a between ha) between b left' hb

theorem after {f : A → Follow B} {q : B → Prop} (hf : ∀ a, Gives (f a) q) : Gives (x >>= f) q := by
  have hx : Gives x fun _ => True := fun _ _ _ _ => trivial
  exact hx.bind fun a _ => hf a

theorem mapM {f : A → Follow B} {q : B → Prop} (hf : ∀ a, Gives (f a) q) (as : List A) :
    Gives (as.mapM f) fun bs => ∀ b ∈ bs, q b := by
  induction as with
  | nil => exact pure (List.forall_mem_nil _)
  | cons a as ih =>
    rw [List.mapM_cons]
    refine (hf a).bind fun b hb => ?_
    refine ih.bind fun bs hbs => ?_
    exact pure (List.forall_mem_cons.2 ⟨hb, hbs⟩)

theorem foldlM {f : A → B → Follow A} (hf : ∀ a b, p a → Gives (f a b) p) (bs : List B) {a : A}
    (ha : p a) : Gives (bs.foldlM f a) p := by
  induction bs generalizing a with
  | nil => exact pure ha
  | cons b bs ih =>
    rw [List.foldlM_cons]
    exact (hf a b ha).bind fun _ h => ih h

end Gives

theorem value_zero (targets : Targets) (node : Node) : value targets 0 node = (do
    match ← target targets node with
    | scalar _ tag text plain => (Scalar.value? tag text plain : Option Value)
    | _ => failure) := by
  delta value
  refine bind_congr (x := target targets node) fun node => ?_
  cases node <;> rfl

theorem value_succ (targets : Targets) (depth : Nat) (node : Node) :
    value targets (depth + 1) node = (do
      match ← target targets node with
      | scalar _ tag text plain => (Scalar.value? tag text plain : Option Value)
      | sequence _ tag items =>
        if tag.any Tag.isOwn then failure
        return .array (← items.mapM (value targets depth))
      | mapping _ tag entries =>
        if tag.any Tag.isOwn then failure
        let members ← entries.mapM fun e => do
          let key ← keyText targets e.1
          return (key, ← value targets depth e.2)
        return .object (Members.ofList members)
      | _ => failure) := by
  delta value
  refine bind_congr (x := target targets node) fun node => ?_
  cases node <;> rfl

theorem gives_distinct_entries {targets : Targets} {depth : Nat}
    (h : ∀ node, Gives (value targets depth node) Value.Distinct) (entries : List (Node × Node)) :
    Gives (do
      let members ← entries.mapM fun e => do
        let key ← keyText targets e.1
        return (key, ← value targets depth e.2)
      return Value.object (Members.ofList members)) Value.Distinct := by
  have hentry : ∀ e : Node × Node, Gives (do
      let key ← keyText targets e.1
      return (key, ← value targets depth e.2)) fun m => m.2.Distinct := by
    intro e
    refine .after fun key => ?_
    exact (h e.2).bind fun v hv => .pure hv
  refine (Gives.mapM hentry entries).bind fun ms hm => ?_
  refine .pure (.object (Members.nodup_keys_ofList ms) fun m hmem => ?_)
  exact hm m (Members.mem_of_mem_ofList hmem)

theorem gives_distinct (targets : Targets) (depth : Nat) (node : Node) :
    Gives (value targets depth node) Value.Distinct := by
  induction depth generalizing node with
  | zero =>
    rw [value_zero]
    refine .after fun node => ?_
    cases node with
    | scalar anchor tag text plain => exact .lift fun v => Scalar.distinct_value?
    | _ => exact .failure
  | succ depth ih =>
    rw [value_succ]
    refine .after fun node => ?_
    cases node with
    | scalar anchor tag text plain => exact .lift fun v => Scalar.distinct_value?
    | sequence anchor tag items =>
      have hitems : Gives (do return Value.array (← items.mapM (value targets depth)))
          Value.Distinct := by
        refine (Gives.mapM ih items).bind fun xs hx => ?_
        exact .pure (.array hx)
      dsimp only
      split
      · exact .after fun _ => hitems
      · exact hitems
    | mapping anchor tag entries =>
      dsimp only
      split
      · exact .after fun _ => gives_distinct_entries ih entries
      · exact gives_distinct_entries ih entries
    | aliasOf n => exact .failure

end Yaml.Node

theorem Yaml.distinct_of_valueOfText? {s : String} {v : Value}
    (h : Yaml.valueOfText? s = some v) : v.Distinct := by
  obtain ⟨node, -, hv⟩ := Option.bind_eq_some_iff.1 h
  obtain ⟨⟨w, left⟩, hw, rfl⟩ := Option.map_eq_some_iff.1 hv
  exact Node.gives_distinct _ _ _ _ _ _ hw

theorem Format.distinct_of_value? {format : Format} {s : String} {v : Value}
    (h : format.value? s = some v) : v.Distinct := by
  cases format with
  | json => exact Value.distinct_of_ofText? h
  | yaml => exact Yaml.distinct_of_valueOfText? h

theorem Source.distinct_of_parse? {source : Source} {text : String} {v : Value}
    (h : source.parse? text = .ok v) : v.Distinct := by
  unfold parse? at h
  split at h
  case h_1 w hw => cases h; exact Format.distinct_of_value? hw
  case h_2 => cases h

theorem Source.distinct_of_load {fs : FileSystem} {fetch : String → Except String String}
    {source : Source} {v : Value} (h : source.load fs fetch = .ok v) : v.Distinct := by
  obtain ⟨text, -, hparse⟩ := Outcome.bind_eq_ok_iff.1 h
  exact distinct_of_parse? hparse

theorem Json.Value.Distinct.modifyMembers {f : Members → Members}
    (hf : ∀ ms : Members, List.Sublist (f ms) ms) {path : List String} {v : Value}
    (hv : v.Distinct) : (v.modifyMembers f path).Distinct := by
  induction path generalizing v with
  | nil =>
    cases hv with
    | object hn hm =>
      exact .object (hn.sublist ((hf _).map Prod.fst)) fun m h => hm m ((hf _).subset h)
    | null => exact .null
    | bool b => exact .bool b
    | number n => exact .number n
    | string s => exact .string s
    | array hx => exact .array hx
  | cons key path ih =>
    cases hv with
    | @object ms hn hm =>
      have hkeys : Members.keys (ms.map fun m =>
          if m.1 = key then (m.1, m.2.modifyMembers f path) else m) = Members.keys ms := by
        simp only [Members.keys, List.map_map]
        refine List.map_congr_left fun m _ => ?_
        simp only [Function.comp_apply]
        split <;> rfl
      refine .object (hkeys ▸ hn) fun m h => ?_
      obtain ⟨n, hmem, rfl⟩ := List.mem_map.1 h
      split
      · exact ih (hm n hmem)
      · exact hm n hmem
    | null => exact .null
    | bool b => exact .bool b
    | number n => exact .number n
    | string s => exact .string s
    | array hx => exact .array hx

theorem Ignore.distinct_filter (i : Ignore) (dialect : Dialect) {document : Value}
    (h : document.Distinct) : (i.filter dialect document).Distinct := by
  have hfold : ∀ (ls : List (List String × List String)) (d : Value), d.Distinct →
      (ls.foldl (fun d l => d.modifyMembers (removeNames l.2) l.1) d).Distinct := by
    intro ls
    induction ls with
    | nil => exact fun d hd => hd
    | cons l ls ih => exact fun d hd => ih _ (hd.modifyMembers fun ms => List.filter_sublist)
  unfold filter filter?
  split
  · exact hfold _ _ h
  · exact h

theorem distinct_walked {fs : FileSystem} {fetch : String → Except String String}
    {source : Source} {document : Value} (h : source.load fs fetch = .ok document) (i : Ignore)
    (dialect : Dialect) :
    (i.filter dialect document).Distinct :=
  i.distinct_filter dialect (Source.distinct_of_load h)

end ApiLint
