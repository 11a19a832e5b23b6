import ApiLint.Config.Loading
import ApiLint.Proofs.Config.RuleMembers
import ApiLint.Proofs.Document.Distinct
import ApiLint.Proofs.Outcome

/-!
# Reading configurations

The values that are read where a layout is expected are distinct, in both formats: a map keeps one
value for each name, and a record that has a field twice is refused. So no configuration that is
read has two settings for one rule.
-/

namespace ApiLint

open Json Outcome

namespace Json.Tree

mutual

theorem distinct_valueAs? {depth : Nat} {layout : Layout} {t : Tree} {v : Value}
    (h : t.valueAs? depth layout = some v) : v.Distinct := by
  match t, layout, depth, h with
  | .object ts, .record fields closed, depth + 1, h =>
    obtain ⟨ms, hms, rfl⟩ := Option.map_eq_some_iff.1 h
    obtain ⟨hn, -, hd⟩ := distinct_fieldsAs? hms
    exact .object hn hd
  | .array ts, .record fields closed, depth + 1, h =>
    obtain ⟨xs, hxs, rfl⟩ := Option.map_eq_some_iff.1 h
    exact .array (distinct_itemsAs? hxs)
  | .object _, .any, _, h | .object _, .text, _, h | .object _, .texts, _, h
  | .object _, .map, _, h => exact distinct_value? h
  | .array _, .any, _, h | .array _, .text, _, h | .array _, .texts, _, h
  | .array _, .map, _, h => exact distinct_value? h
  | .null, _, _, h | .bool _, _, _, h | .number _, _, _, h | .string _, _, _, h =>
    exact distinct_value? h

theorem distinct_fieldsAs? {depth : Nat} {fields : List (String × Layout)} {closed : Bool}
    {seen : List String} {ts : List (Option String × Tree)} {ms : Members}
    (h : fieldsAs? depth fields closed seen ts = some ms) :
    ms.keys.Nodup ∧ (∀ key ∈ ms.keys, key ∉ seen) ∧ ∀ m ∈ ms, m.2.Distinct := by
  match ts, h with
  | [], h =>
    obtain rfl := Option.some.inj h
    simp [Members.keys]
  | (name, t) :: ts, h =>
    simp only [fieldsAs?, Option.bind_eq_bind, Option.bind_eq_some_iff] at h
    obtain ⟨key, -, h⟩ := h
    split at h
    case h_1 layout _ =>
      split at h
      case isTrue => cases h
      case isFalse hseen =>
        simp only [Option.bind_eq_some_iff] at h
        obtain ⟨v, hv, es, he, h⟩ := h
        obtain rfl := Option.some.inj h
        obtain ⟨hn, hfresh, hd⟩ := distinct_fieldsAs? he
        have hkey : key ∉ Members.keys es := by
          intro hmem
          exact hfresh key hmem List.mem_cons_self
        refine ⟨List.nodup_cons.2 ⟨hkey, hn⟩, ?_, List.forall_mem_cons.2 ⟨distinct_valueAs? hv, hd⟩⟩
        refine List.forall_mem_cons.2 ⟨by simpa using hseen, fun other hother => ?_⟩
        intro hmem
        exact hfresh other hother (List.mem_cons_of_mem _ hmem)
    case h_2 =>
      split at h
      case isTrue => cases h
      case isFalse => exact distinct_fieldsAs? h

theorem distinct_itemsAs? {depth : Nat} {fields : List (String × Layout)} {ts : List Tree}
    {xs : List Value} (h : itemsAs? depth fields ts = some xs) : ∀ x ∈ xs, x.Distinct := by
  match fields, ts, h with
  | _, [], h =>
    obtain rfl : [] = xs := by simpa [itemsAs?] using h
    exact List.forall_mem_nil _
  | (_, layout) :: fields, t :: ts, h =>
    simp only [itemsAs?, Option.bind_eq_bind, Option.bind_eq_some_iff] at h
    obtain ⟨y, hy, ys, hys, h⟩ := h
    obtain rfl := Option.some.inj h
    exact List.forall_mem_cons.2 ⟨distinct_valueAs? hy, distinct_itemsAs? hys⟩

end

end Json.Tree

namespace Yaml.Node

theorem distinct_append {ms : Members} (hms : (Value.object ms).Distinct) {key : String}
    (hkey : ms.contains key = false) {v : Value} (hv : v.Distinct) :
    (Value.object (ms ++ [(key, v)])).Distinct := by
  obtain ⟨hn, hd⟩ := Value.distinct_object_iff.1 hms
  have hfresh : key ∉ ms.keys := by
    intro hmem
    obtain ⟨w, hw⟩ := Members.exists_get?_of_mem_keys hmem
    rw [Members.contains, hw] at hkey
    cases hkey
  refine .object ?_ (List.forall_mem_append.2 ⟨hd, List.forall_mem_singleton.2 hv⟩)
  rw [Members.keys, List.map_append]
  exact hn.append (List.nodup_singleton _) (by simpa using hfresh)

theorem distinct_object_nil : (Value.object []).Distinct :=
  .object List.nodup_nil (List.forall_mem_nil _)

theorem gives_distinct_fields {targets : Targets} {depth : Nat}
    (h : ∀ layout node, Gives (valueAs targets depth layout node) Value.Distinct)
    (fields : List (String × Layout)) (closed : Bool) (entries : List (Node × Node)) :
    Gives (do
      let members ← entries.foldlM (fun (members : Members) e => do
        let key ← keyText targets e.1
        match Layout.field? fields key with
        | some layout =>
          if members.contains key then failure
          return members ++ [(key, ← valueAs targets depth layout e.2)]
        | none => if closed then failure else return members) []
      return Value.object members) Value.Distinct := by
  refine Gives.bind (p := fun ms => (Value.object ms).Distinct)
    (Gives.foldlM (fun ms e hms => ?_) entries distinct_object_nil) fun ms hms => .pure hms
  refine .after fun key => ?_
  split
  case h_1 layout _ =>
    by_cases hkey : Members.contains ms key = true
    · rw [if_pos hkey]
      exact Gives.bind (p := fun _ => False) .failure fun _ h => h.elim
    · rw [if_neg hkey]
      refine (h layout e.2).bind fun v hv => .pure ?_
      exact distinct_append hms (by simpa using hkey) hv
  case h_2 =>
    split
    · exact .failure
    · exact .pure hms

theorem gives_distinct_valueAs (targets : Targets) (depth : Nat) (layout : Layout) (node : Node) :
    Gives (valueAs targets depth layout node) Value.Distinct := by
  -- Only a record has parts with layouts of their own, one level further down.
  induction depth generalizing layout node with
  | zero =>
    rw [valueAs.eq_def]
    cases layout with
    | any => exact gives_distinct targets 0 node
    | text => exact .after fun s => .pure (.string s)
    | texts =>
      refine .after fun node => ?_
      split
      · exact .pure (.array (List.forall_mem_nil _))
      · exact .failure
    | map =>
      refine .after fun node => ?_
      dsimp only
      split
      · exact .pure distinct_object_nil
      · exact .failure
    | record =>
      refine .after fun node => ?_
      dsimp only
      split
      · exact .pure distinct_object_nil
      · exact .failure
  | succ depth ih =>
    rw [valueAs.eq_def]
    cases layout with
    | any => exact gives_distinct targets _ node
    | text => exact .after fun s => .pure (.string s)
    | texts =>
      refine .after fun node => ?_
      split
      · exact .pure (.array (List.forall_mem_nil _))
      · cases node with
        | sequence anchor tag items =>
          have hitem : ∀ item : Node, Gives (do return Value.string (← keyText targets item))
              Value.Distinct :=
            fun item => .after fun s => .pure (.string s)
          exact (Gives.mapM hitem items).bind fun xs hx => .pure (.array hx)
        | _ => exact .failure
    | map =>
      refine .after fun node => ?_
      split
      · exact .pure distinct_object_nil
      · cases node with
        | mapping anchor tag entries =>
          exact gives_distinct_entries (gives_distinct targets depth) entries
        | _ => exact .failure
    | record fields closed =>
      refine .after fun node => ?_
      dsimp only
      split
      · exact .pure distinct_object_nil
      · cases node with
        | mapping anchor tag entries => exact gives_distinct_fields ih fields closed entries
        | _ => exact .failure

end Yaml.Node

theorem Format.distinct_of_valueAs? {format : Format} {layout : Layout} {s : String} {v : Value}
    (h : format.valueAs? layout s = some v) : v.Distinct := by
  cases format with
  | json =>
    obtain ⟨t, -, hv⟩ := Option.bind_eq_some_iff.1 h
    exact Tree.distinct_valueAs? hv
  | yaml =>
    obtain ⟨node, -, hv⟩ := Option.bind_eq_some_iff.1 h
    obtain ⟨⟨w, left⟩, hw, rfl⟩ := Option.map_eq_some_iff.1 hv
    exact Yaml.Node.gives_distinct_valueAs _ _ _ _ _ _ _ hw

theorem Json.Decode.record_induction {E R : Type} {motive : R → Prop} {fields : Fields}
    {default r : R} {set : R → String → Value → Except (DecodeError E) R} {v : Value}
    (hv : v.Distinct) (hdefault : motive default)
    (hset : ∀ r key w r', w.Distinct → motive r → set r key w = .ok r' → motive r')
    (h : record fields default set v = .ok r) : motive r := by
  cases v with
  | object ms =>
    simp only [record, bind_eq_ok_iff] at h
    obtain ⟨r', hr', h⟩ := h
    have hmotive : motive r' := by
      refine foldlM_induction hdefault (fun m hm a b ha hb => ?_) hr'
      split at hb
      · exact hset a m.1 m.2 b (hv.of_mem_members rfl hm) ha hb
      · split at hb
        · cases hb
        · cases hb; exact ha
    split at h
    · cases h
    · cases h; exact hmotive
  | array xs =>
    simp only [record, bind_eq_ok_iff] at h
    obtain ⟨r', hr', h⟩ := h
    have hmotive : motive r' := by
      refine foldlM_induction hdefault (fun m hm a b ha hb => ?_) hr'
      exact hset a m.1 m.2 b (hv.of_mem_items rfl (List.of_mem_zip hm).2) ha hb
    split at h
    · cases h
    · split at h
      · cases h
      · cases h; exact hmotive
  | _ => cases h

namespace Config

theorem nodup_names_of_rulesOf? {v : Value} {rs : RuleSet} (hv : v.Distinct)
    (h : rulesOf? v = .ok rs) : rs.names.Nodup := by
  obtain ⟨ms, hms, h⟩ := bind_eq_ok_iff.1 h
  have hobject : v.members? = some ms := by
    unfold Decode.members at hms
    split at hms
    · cases hms; rfl
    · cases hms
  split at h
  case h_1 rules hrules =>
    cases h
    rw [RuleSet.names_of_ofMembers? hrules]
    exact hv.nodup_keys hobject
  case h_2 => cases h

theorem nodup_names_of_ofValue? {v : Value} {c : Config} (hv : v.Distinct)
    (h : ofValue? v = .ok c) : c.rules.names.Nodup := by
  refine Decode.record_induction (motive := fun c => c.rules.names.Nodup) hv List.nodup_nil ?_ h
  intro c key w d hw hc hd
  unfold setField at hd
  split at hd
  · obtain ⟨bases, -, hd⟩ := bind_eq_ok_iff.1 hd
    cases hd
    exact hc
  · obtain ⟨rules, hrules, hd⟩ := bind_eq_ok_iff.1 hd
    cases hd
    exact nodup_names_of_rulesOf? hw hrules
  · obtain ⟨ignore, -, hd⟩ := bind_eq_ok_iff.1 hd
    cases hd
    exact hc
  · cases hd
    exact hc

theorem nodup_names_of_ofText? {format : Format} {s : String} {c : Config}
    (h : ofText? format s = .ok c) : c.rules.names.Nodup := by
  unfold ofText? at h
  split at h
  case h_1 v hv =>
    exact nodup_names_of_ofValue? (Format.distinct_of_valueAs? hv) (mapError_eq_ok_iff.1 h)
  case h_2 => cases h

theorem exists_format_of_parseAs? {path : Path} {text : String} {formats : List Format} {c : Config}
    (h : parseAs? path text formats = .ok c) : ∃ format ∈ formats, ofText? format text = .ok c := by
  fun_induction parseAs? path text formats with
  | case1 => cases h
  | case2 format => exact ⟨format, List.mem_cons_self, mapError_eq_ok_iff.1 h⟩
  | case3 format others _ d hd =>
    cases h
    exact ⟨format, List.mem_cons_self, hd⟩
  | case4 format others _ e he ih =>
    obtain ⟨other, hother, hread⟩ := ih h
    exact ⟨other, List.mem_cons_of_mem _ hother, hread⟩

theorem nodup_names_of_parse? {path : Path} {text : String} {c : Config}
    (h : parse? path text = .ok c) : c.rules.names.Nodup := by
  obtain ⟨format, -, hread⟩ := exists_format_of_parseAs? h
  exact nodup_names_of_ofText? hread

end Config

end ApiLint
