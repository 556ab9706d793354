import ObjcMetadata.Proofs.Stage.Ancestors
import ObjcMetadata.Proofs.Stage.Categories
import ObjcMetadata.Proofs.Stage.Exceptions
import ObjcMetadata.Proofs.Stage.Inherited
import ObjcMetadata.Proofs.Stage.Reduct
import ObjcMetadata.Proofs.Stage.Repair
/-!
Stages that are done once.

What a stage plans it reads off the module that it gets, and a second time that is the module that
it has made: names resolve to what is left, bases and lists have been rewritten, ancestors have lost
members. Still a second application leaves the declarations as they are (`Stage.stable`). Four of
the stages make modules of a form that they do not change: nothing mentions a removed name
(`Removal.apply_of_free`), no category extends an interface of the module
(`Categories.apply_of_merged`), no member is repeated by an ancestor (`Inherited.drop_drop`), no key
is repeated. Exception rules have no such form, because they may undo each other; there it is the
rules that act only once (`ExceptionRule.foldl_act_foldl_act`). Problems are noted each time.
-/

namespace ObjcMetadata

open Declaration

/-! ### Removals -/

namespace Removal

variable {names : List QualifiedName} {external : Resolver} {m : Module} {d : Declaration}

/-- Where nothing mentions a removed name, everything stays as it is. -/
theorem outcome_of_free (h : ∀ e ∈ m.declarations, Free names e) (hd : d ∈ m.declarations) :
    outcome names external m d = some d := by
  have hremoved : ∀ c, c ∉ removedCategories names m.declarations := by
    intro c hc
    rcases mem_removedCategories.mp hc with ⟨hname, e, he, hkey⟩ | ⟨e, he, -, i, hi, hextended⟩
    · obtain rfl : e.name = c := congrArg DeclKey.name hkey
      exact (h e he).name hname
    · exact (h e he).extended i hextended hi
  have hdeciding : deciding names m.declarations d.name = none := by
    refine Option.eq_none_iff_forall_ne_some.mpr fun e heq => ?_
    obtain ⟨he, -, b, hb, hbase⟩ := deciding_eq_some heq
    exact (h e he).base b hbase hb
  refine rewrite_eq_some_iff.mpr ⟨(h d hd).name, fun _ => hremoved d.name, ?_⟩
  refine (repaired_eq_self_iff.mpr ⟨fun _ => ?_, (h d hd).protocols, fun c _ => hremoved c⟩).symm
  rw [baseAfter_newBases, hdeciding]

theorem apply_of_free (h : ∀ d ∈ m.declarations, Free names d) :
    (apply names external m).declarations = m.declarations := by
  rw [declarations_apply]
  calc m.declarations.filterMap (outcome names external m)
      = m.declarations.filterMap some := List.filterMap_congr fun d hd => outcome_of_free h hd
    _ = m.declarations := List.filterMap_some

end Removal

/-! ### Categories -/

namespace Categories

variable {external : Resolver} {m : Module} {d : Declaration}

/-- Where no category extends an interface of the module, there is nothing to merge. -/
theorem apply_of_merged (h : m.Merged) :
    (apply external m).declarations = m.declarations := by
  have hstays : ∀ d ∈ m.declarations, isAbsorbed m.declarations d = false := by
    intro d hd
    rw [Bool.eq_false_iff, ne_eq, isAbsorbed_iff]
    rintro ⟨c, hcategory, hkey⟩
    exact h d hd c hcategory hkey
  show (m.declarations.foldl mergeInto m.declarations).filter _ = _
  rw [foldl_mergeInto_of_stays hstays]
  exact List.filter_eq_self.mpr fun d hd => by rw [hstays d hd]; rfl

end Categories

/-! ### Inherited members -/

namespace Inherited

variable {cx : Context} {m : Module} {lookup : Lookup} {d e : Declaration} {x : Member}

theorem drop_eq_self (h : ∀ x ∈ d.entries, ¬ Repeats lookup d x) : drop lookup d = d := by
  have hall : ∀ own, d.members? = some own →
      d.withMembers (without (members lookup d) own) = d := by
    intro own hown
    rw [entries_of_members? hown] at h
    rw [without_members, Members.filter_eq_self h, withMembers_of_members? hown]
  unfold drop
  cases hbody : d.body with
  | interface i => exact hall i.members (by simp [members?, hbody])
  | protocol p => exact hall p.members (by simp [members?, hbody])
  | _ => rfl

/-- What is inherited from afterwards is what is left of what was inherited from before. -/
theorem Ancestor.of_apply (h : Ancestor (cx.lookup (apply cx m)) (drop (cx.lookup m) d) e) :
    ∃ f, Ancestor (cx.lookup m) d f ∧ (e = f ∨ e = drop (cx.lookup m) f) := by
  induction h with
  | parent hparent hne hfind =>
    rw [parents_drop] at hparent
    rw [key_drop] at hne
    obtain ⟨f, hfind, heq⟩ := find?_of_apply hfind
    exact ⟨f, .parent hparent hne hfind, heq⟩
  | @further key e e' _ hparent hne hfind ih =>
    obtain ⟨g, hancestor, hg⟩ := ih
    have hparents : e.parents = g.parents := by
      rcases hg with rfl | rfl
      · rfl
      · exact parents_drop _ g
    rw [hparents] at hparent
    rw [key_drop] at hne
    obtain ⟨f, hfind, heq⟩ := find?_of_apply hfind
    exact ⟨f, .further hancestor hparent hne hfind, heq⟩

theorem Repeats.of_apply (h : Repeats (cx.lookup (apply cx m)) (drop (cx.lookup m) d) x) :
    Repeats (cx.lookup m) d x := by
  obtain ⟨e, hancestor, y, hy, hsame⟩ := h
  obtain ⟨f, hancestor', rfl | rfl⟩ := hancestor.of_apply
  · exact ⟨e, hancestor', y, hy, hsame⟩
  · exact ⟨f, hancestor', y, mem_of_mem_drop hy, hsame⟩

/-- **Inherited members are dropped once.** -/
theorem drop_drop (cx : Context) (m : Module) (d : Declaration) :
    drop (cx.lookup (apply cx m)) (drop (cx.lookup m) d) = drop (cx.lookup m) d := by
  by_cases hkind : d.kind = .category
  · rw [drop_of_category hkind, drop_of_category hkind]
  · refine drop_eq_self fun x hx hrepeats => ?_
    exact not_repeats_iff.mpr ((mem_entries_drop hkind).mp hx).2 hrepeats.of_apply

end Inherited

/-! ### All stages -/

namespace Stage

/-- A stage succeeds for every module, and it finds nothing to change in what it has made. -/
def Stable (cx : Context) (stage : Stage) : Prop :=
  ∀ m, ∃ m' m'', stage.apply cx m = .ok m' ∧ stage.apply cx m' = .ok m'' ∧
    m''.declarations = m'.declarations

variable (cx : Context)

theorem stable_exceptions (rules : List ExceptionRule) : (exceptions rules).Stable cx := by
  refine fun m => ⟨_, _, rfl, rfl, ?_⟩
  simp only [ExceptionRule.declarations_applyAll, ExceptionRule.foldl_act_foldl_act]

theorem stable_removal (names : List QualifiedName) : (removal names).Stable cx := by
  refine fun m => ⟨_, _, rfl, rfl, Removal.apply_of_free fun d hd => ?_⟩
  rw [Removal.declarations_apply] at hd
  obtain ⟨e, he, houtcome⟩ := List.mem_filterMap.mp hd
  exact Removal.free_of_outcome he houtcome

theorem stable_categories : categories.Stable cx :=
  fun m => ⟨_, _, rfl, rfl, Categories.apply_of_merged (merged_categories cx.external.find? m)⟩

theorem stable_inherited : inherited.Stable cx := by
  refine fun m => ⟨_, _, rfl, rfl, ?_⟩
  show (m.declarations.map _).map _ = m.declarations.map _
  rw [List.map_map]
  exact List.map_congr_left fun d _ => Inherited.drop_drop cx m d

theorem stable_repeated : repeated.Stable cx :=
  fun _ => ⟨_, _, rfl, rfl, distinctBy_eq_self nodup_map_distinctBy.1 fun _ _ => List.not_mem_nil⟩

/-- **What these stages do, they do once.** -/
theorem stable (rules : List ExceptionRule) (names : List QualifiedName) :
    (exceptions rules).Stable cx ∧ (removal names).Stable cx ∧ categories.Stable cx ∧
      inherited.Stable cx ∧ repeated.Stable cx :=
  ⟨stable_exceptions cx rules, stable_removal cx names, stable_categories cx, stable_inherited cx,
    stable_repeated cx⟩

end Stage

end ObjcMetadata
