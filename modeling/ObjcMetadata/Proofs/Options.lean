import Mathlib.Data.List.Basic
import Mathlib.Data.List.Induction
import ObjcMetadata.Options
import ObjcMetadata.Proofs.Sequence
/-!
Options from several sources.

Reading further arguments goes on from what was read before (`extend_append`), and each setting acts
on merged options as it acts on the later of them (`apply_merge`), with one exception: a later
source that leaves the number of jobs to the machine says nothing about jobs when it is merged, but
takes back a number that stands before it in one list. So the arguments of two sources, one after
the other, are read as the merge of both, unless the second leaves the jobs to the machine in the
end; then they are left to the machine (`parse_append`).

How sources are grouped does not matter, and a source that is merged with itself, or followed by one
without settings, stays as it is (`merge_laws`). Behind a source without settings it stays so only
if it names nothing twice, which holds of everything that is read, and of what is merged from it.
-/

namespace ObjcMetadata

/-! ### Settings of jobs -/

namespace Setting

/-- Whether an argument sets the number of jobs, or is meant to. -/
def isJobs (argument : String) : Bool :=
  (valueOf? "--jobs" argument).isSome

theorem valueOf?_eq_some_iff {option argument value : String} :
    valueOf? option argument = some value ↔ argument = option ++ "=" ++ value := by
  unfold valueOf?
  rw [Option.map_eq_some_iff]
  constructor
  · rintro ⟨rest, hprefix, rfl⟩
    rw [List.isPrefixOf?_eq_some_iff_append_eq] at hprefix
    rw [← String.toList_inj, String.toList_append, String.toList_ofList, hprefix]
  · rintro rfl
    refine ⟨value.toList, ?_, String.ofList_toList⟩
    rw [List.isPrefixOf?_eq_some_iff_append_eq, ← String.toList_append]

/-- An argument that sets the number of jobs is read as such, and no other is. -/
theorem read_of_isJobs {argument : String} (h : isJobs argument = true) :
    ∃ value, argument = "--jobs=" ++ value ∧ read argument = readJobs value := by
  obtain ⟨value, hvalue⟩ := Option.isSome_iff_exists.mp h
  have hremove : valueOf? "--remove" argument = none := by
    refine Option.eq_none_iff_forall_ne_some.mpr fun other hother => ?_
    rw [valueOf?_eq_some_iff] at hvalue hother
    simp [hvalue, ← String.toList_inj] at hother
  have hargument : argument = "--jobs=" ++ value := valueOf?_eq_some_iff.mp hvalue
  refine ⟨value, hargument, ?_⟩
  unfold read
  simp only [hvalue, hremove]
  simp [hargument, ← String.toList_inj]

theorem isJobs_of_read {argument : String} {count : Option Nat}
    (h : read argument = .ok (.jobs count)) : isJobs argument = true := by
  unfold read at h
  split_ifs at h
  · cases h
  · cases h
  · cases h
  · cases h
  · split at h
    · unfold readRemove at h
      split at h
      · cases h
      · cases h
    · next value _ hjobs => exact Option.isSome_iff_exists.mpr ⟨value, hjobs⟩
    · cases h

theorem readJobs_ok {value : String} {s : Setting} (h : readJobs value = .ok s) :
    ∃ count, s = .jobs count ∧ (count = none ↔ value = "auto") := by
  unfold readJobs at h
  split at h
  · next hauto => exact ⟨none, (Except.ok.inj h).symm, by simp [hauto]⟩
  · next hauto =>
    split at h
    · next n _ => exact ⟨some n, (Except.ok.inj h).symm, by simp [hauto]⟩
    · cases h

/-- The arguments that are read as settings of jobs, and those that leave them to the machine. -/
theorem isJobs_iff {argument : String} {s : Setting} (h : read argument = .ok s) :
    isJobs argument = true ↔
      ∃ count, s = .jobs count ∧ (count = none ↔ argument = "--jobs=auto") := by
  constructor
  · intro hjobs
    obtain ⟨value, rfl, hread⟩ := read_of_isJobs hjobs
    obtain ⟨count, hs, hcount⟩ := readJobs_ok (hread.symm.trans h)
    refine ⟨count, hs, hcount.trans ?_⟩
    rw [← String.toList_inj, ← String.toList_inj]
    simp
  · rintro ⟨count, rfl, -⟩
    exact isJobs_of_read h

end Setting

/-! ### Reading and merging -/

namespace Options

/-- The last argument about jobs leaves them to the machine. -/
def ResetsJobs (arguments : List String) : Prop :=
  (arguments.filter Setting.isJobs).getLast? = some "--jobs=auto"

instance (arguments : List String) : Decidable (ResetsJobs arguments) :=
  inferInstanceAs (Decidable (_ = _))

theorem resetsJobs_concat_of_isJobs {arguments : List String} {argument : String}
    (h : Setting.isJobs argument = true) :
    ResetsJobs (arguments ++ [argument]) ↔ argument = "--jobs=auto" := by
  simp [ResetsJobs, h]

theorem resetsJobs_concat_of_not_isJobs {arguments : List String} {argument : String}
    (h : ¬ Setting.isJobs argument = true) :
    ResetsJobs (arguments ++ [argument]) ↔ ResetsJobs arguments := by
  simp [ResetsJobs, h]

/-- The options of a source and of a second one that is read with it as one list. -/
def followedBy (o later : Options) (arguments : List String) : Options :=
  if ResetsJobs arguments then { o.merge later with jobs := none } else o.merge later

/-- Reading goes on from what was read before. -/
theorem extend_append (o : Options) (xs ys : List String) :
    o.extend (xs ++ ys) = (o.extend xs).bind fun a => a.extend ys := by
  induction xs generalizing o with
  | nil => rfl
  | cons x xs ih =>
    simp only [List.cons_append, extend]
    split
    · rfl
    · exact ih _

/-- A setting that is not about jobs acts on merged options as on the later of them. -/
theorem apply_merge {o later : Options} {s : Setting} (h : ∀ count, s ≠ .jobs count) :
    (o.merge later).apply s = o.merge (later.apply s) := by
  cases s with
  | remove name => simp [apply, merge, appendNew_appendNew_singleton]
  | jobs count => exact absurd rfl (h count)
  | _ => simp [apply, merge]

theorem apply_followedBy {o later : Options} {arguments : List String} {argument : String}
    {s : Setting} (h : Setting.read argument = .ok s) :
    (o.followedBy later arguments).apply s =
      o.followedBy (later.apply s) (arguments ++ [argument]) := by
  unfold followedBy
  by_cases hjobs : Setting.isJobs argument = true
  · obtain ⟨count, rfl, hcount⟩ := (Setting.isJobs_iff h).mp hjobs
    simp only [resetsJobs_concat_of_isJobs hjobs, ← hcount]
    cases count with
    | none => split <;> simp [apply, merge]
    | some n => split <;> simp [apply, merge]
  · have hother : ∀ count, s ≠ .jobs count := by
      rintro count rfl
      exact hjobs (Setting.isJobs_of_read h)
    simp only [resetsJobs_concat_of_not_isJobs hjobs]
    split
    · rw [← apply_merge hother]
      cases s with
      | jobs count => exact absurd rfl (hother count)
      | _ => rfl
    · exact apply_merge hother

/-- Arguments are read alike after others and by themselves. -/
theorem extend_eq (o : Options) (ys : List String) :
    o.extend ys = (parse ys).map fun later => o.followedBy later ys := by
  induction ys using List.reverseRecOn with
  | nil => simp [parse, extend, followedBy, ResetsJobs, merge, appendNew, Except.map]
  | append_singleton ys y ih =>
    unfold parse at ih ⊢
    rw [extend_append, extend_append, ih]
    cases hparse : extend {} ys with
    | error e => rfl
    | ok later =>
      simp only [Except.map, Except.bind, extend]
      cases hread : Setting.read y with
      | error e => rfl
      | ok s => exact congrArg Except.ok (apply_followedBy hread)

/-- **Two sources are read as one list of arguments** up to their jobs: the first error is the
error of the list, and without one the options are the merge of those of the sources, unless the
second source leaves the jobs to the machine in the end, which a merge does not see. -/
theorem parse_append (xs ys : List String) :
    parse (xs ++ ys) =
      match parse xs, parse ys with
      | .error e, _ => .error e
      | .ok _, .error e => .error e
      | .ok a, .ok b =>
        .ok (if ResetsJobs ys then { a.merge b with jobs := none } else a.merge b) := by
  rw [parse, extend_append, ← parse]
  cases parse xs with
  | error e => rfl
  | ok a =>
    simp only [Except.bind, extend_eq]
    cases parse ys with
    | error e => rfl
    | ok b => rfl

/-- A number of jobs that the second source takes back is kept by the merge. -/
theorem parse_reset_ne_merge :
    ∃ a b, parse ["--jobs=4"] = .ok a ∧ parse ["--jobs=auto"] = .ok b ∧
      parse (["--jobs=4"] ++ ["--jobs=auto"]) ≠ .ok (a.merge b) :=
  ⟨{ jobs := some 4 }, {}, by decide, by decide, by decide⟩

/-! ### Merging more than two sources -/

theorem merge_assoc (a b c : Options) : (a.merge b).merge c = a.merge (b.merge c) := by
  simp only [merge, appendNew_assoc, Option.or_assoc, Bool.or_assoc]

theorem merge_default (o : Options) : o.merge {} = o := by
  simp [merge, appendNew]

theorem merge_self (o : Options) : o.merge o = o := by
  simp [merge, appendNew_eq_self]

/-- Behind options without settings, a merge keeps each name once. -/
theorem default_merge_iff (o : Options) : merge {} o = o ↔ o.remove.Nodup := by
  rw [← appendNew_nil_iff]
  constructor
  · exact congrArg remove
  · intro h
    simp [merge, h]

theorem nodup_remove_merge {o : Options} (h : o.remove.Nodup) (later : Options) :
    (o.merge later).remove.Nodup :=
  nodup_appendNew h later.remove

theorem nodup_remove_apply {o : Options} (h : o.remove.Nodup) (s : Setting) :
    (o.apply s).remove.Nodup := by
  cases s with
  | remove name => exact nodup_appendNew h [name]
  | _ => exact h

theorem nodup_remove_extend {o o' : Options} {arguments : List String} (h : o.remove.Nodup)
    (hread : o.extend arguments = .ok o') : o'.remove.Nodup := by
  induction arguments generalizing o with
  | nil =>
    cases hread
    exact h
  | cons argument rest ih =>
    unfold extend at hread
    split at hread
    · cases hread
    · next s _ => exact ih (nodup_remove_apply h s) hread

/-- **Sources can be merged in any grouping.** Options without settings change nothing behind
others, and in front of others that name nothing twice; merged with themselves, options stay as they
are. No name is to be removed twice in options that are read, or merged from such options. -/
theorem merge_laws :
    (∀ a b c : Options, (a.merge b).merge c = a.merge (b.merge c)) ∧
      (∀ o : Options, o.merge {} = o ∧ o.merge o = o ∧ (merge {} o = o ↔ o.remove.Nodup)) ∧
      (∀ arguments o, parse arguments = .ok o → o.remove.Nodup) ∧
      (∀ a b : Options, a.remove.Nodup → (a.merge b).remove.Nodup) := by
  refine ⟨merge_assoc, fun o => ⟨merge_default o, merge_self o, default_merge_iff o⟩, ?_, ?_⟩
  · exact fun arguments o hread => nodup_remove_extend List.nodup_nil hread
  · exact fun a b h => nodup_remove_merge h b

/-- Options for which the order of sources and the repeats in them matter. -/
theorem merge_laws_sources :
    ∃ a b c, parse ["--remove=UIKit.A", "--jobs=2", "--remove=UIKit.A"] = .ok a ∧
      parse ["--remove=UIKit.B", "--remove=UIKit.A", "-v"] = .ok b ∧
      parse ["--jobs=6", "--remove=UIKit.C"] = .ok c ∧
      (a.merge b).merge c = a.merge (b.merge c) ∧ merge {} b = b ∧
      ((a.merge b).merge c).remove.Nodup := by
  obtain ⟨hassoc, hneutral, hread, hmerge⟩ := merge_laws
  have ha : parse ["--remove=UIKit.A", "--jobs=2", "--remove=UIKit.A"] =
      .ok { remove := [⟨"UIKit", "A"⟩], jobs := some 2 } := by decide
  have hb : parse ["--remove=UIKit.B", "--remove=UIKit.A", "-v"] =
      .ok { remove := [⟨"UIKit", "B"⟩, ⟨"UIKit", "A"⟩], verbose := true } := by decide
  have hc : parse ["--jobs=6", "--remove=UIKit.C"] =
      .ok { remove := [⟨"UIKit", "C"⟩], jobs := some 6 } := by decide
  exact ⟨_, _, _, ha, hb, hc, hassoc _ _ _, (hneutral _).2.2.mpr (hread _ _ hb),
    hmerge _ _ (hmerge _ _ (hread _ _ ha))⟩

end Options

end ObjcMetadata
