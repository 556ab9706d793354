import Mathlib.Data.List.Basic
import Mathlib.Data.List.Nodup
import ObjcMetadata.Sequence
/-!
Laws of the operations on lists whose order matters.

Elements are changed one by one, and it is always the first of its key that is changed. Doing this
for key after key comes to one pass that changes the first element of each key (`mapFirsts`,
`modifyFirst_mapFirsts`), and the elements changed are those that `distinctBy` keeps
(`distinctBy_mapFirsts`).
-/

namespace ObjcMetadata

/-! ### Partial functions -/

/-- **A list is mapped to a list** just if each element of it is mapped to the one in its place. -/
theorem mapM_eq_ok_iff {α β ε : Type} {f : α → Except ε β} {xs : List α} {ys : List β} :
    xs.mapM f = .ok ys ↔ xs.map f = ys.map .ok := by
  induction xs generalizing ys with
  | nil => cases ys <;> simp [pure, Except.pure]
  | cons x xs ih =>
    rw [List.mapM_cons, List.map_cons]
    cases hx : f x with
    | error e => cases ys <;> simp [bind, Except.bind]
    | ok y =>
      cases ys with
      | nil => cases xs.mapM f <;> simp [bind, Except.bind, pure, Except.pure]
      | cons y' ys =>
        rw [List.map_cons, List.cons.injEq, Except.ok.injEq, ← ih]
        cases xs.mapM f <;> simp [bind, Except.bind, pure, Except.pure]

/-- A list that cannot be mapped has an element that cannot. -/
theorem exists_of_mapM_eq_error {α β ε : Type} {f : α → Except ε β} {xs : List α} {e : ε}
    (h : xs.mapM f = .error e) : ∃ x ∈ xs, f x = .error e := by
  induction xs with
  | nil => cases h
  | cons x xs ih =>
    rw [List.mapM_cons] at h
    cases hx : f x with
    | error e' =>
      rw [hx] at h
      cases h
      exact ⟨x, List.mem_cons_self, hx⟩
    | ok y =>
      cases hxs : xs.mapM f with
      | error e' =>
        rw [hx, hxs] at h
        cases h
        obtain ⟨x', hx', herror⟩ := ih hxs
        exact ⟨x', List.mem_cons_of_mem x hx', herror⟩
      | ok ys =>
        rw [hx, hxs] at h
        cases h

/-- A list can be mapped if each of its elements can. -/
theorem exists_mapM_eq_ok {α β ε : Type} {f : α → Except ε β} {xs : List α}
    (h : ∀ x ∈ xs, ∃ y, f x = .ok y) : ∃ ys, xs.mapM f = .ok ys := by
  cases hmap : xs.mapM f with
  | ok ys => exact ⟨ys, rfl⟩
  | error e =>
    obtain ⟨x, hx, herror⟩ := exists_of_mapM_eq_error hmap
    obtain ⟨y, hy⟩ := h x hx
    cases herror.symm.trans hy

/-! ### Appending what is new -/

section

variable {α : Type} [DecidableEq α]

theorem appendNew_append (xs ys zs : List α) :
    appendNew xs (ys ++ zs) = appendNew (appendNew xs ys) zs := by
  induction ys generalizing xs with
  | nil => rfl
  | cons y ys ih =>
    simp only [List.cons_append, appendNew]
    split
    · exact ih xs
    · exact ih (xs ++ [y])

theorem appendNew_singleton (xs : List α) (a : α) :
    appendNew xs [a] = if a ∈ xs then xs else xs ++ [a] :=
  rfl

/-- Appending one element to a list of new ones is appending it to all. -/
theorem appendNew_appendNew_singleton (xs ys : List α) (a : α) :
    appendNew xs (appendNew ys [a]) = appendNew (appendNew xs ys) [a] := by
  rw [appendNew_singleton ys]
  split
  · next hmem =>
    rw [appendNew_singleton, if_pos (mem_appendNew.mpr (.inr hmem))]
  · exact appendNew_append xs ys [a]

theorem appendNew_assoc (xs ys zs : List α) :
    appendNew (appendNew xs ys) zs = appendNew xs (appendNew ys zs) := by
  induction zs generalizing ys with
  | nil => rfl
  | cons z zs ih =>
    calc appendNew (appendNew xs ys) (z :: zs)
        = appendNew (appendNew (appendNew xs ys) [z]) zs := appendNew_append _ [z] zs
      _ = appendNew (appendNew xs (appendNew ys [z])) zs := by rw [appendNew_appendNew_singleton]
      _ = appendNew xs (appendNew (appendNew ys [z]) zs) := ih (appendNew ys [z])
      _ = appendNew xs (appendNew ys (z :: zs)) := by rw [← appendNew_append ys [z] zs]; rfl

/-- Where nothing is new, nothing is appended. -/
theorem appendNew_eq_self {xs ys : List α} (h : ∀ y ∈ ys, y ∈ xs) : appendNew xs ys = xs := by
  induction ys with
  | nil => rfl
  | cons y ys ih =>
    rw [appendNew, if_pos (h y List.mem_cons_self), ih fun z hz => h z (List.mem_cons_of_mem y hz)]

theorem nodup_appendNew {xs : List α} (h : xs.Nodup) (ys : List α) : (appendNew xs ys).Nodup := by
  induction ys generalizing xs with
  | nil => exact h
  | cons y ys ih =>
    unfold appendNew
    split
    · exact ih h
    · next hnew =>
      refine ih ?_
      rw [← List.concat_eq_append]
      exact h.concat hnew

/-- Where all is new, all is appended. -/
theorem appendNew_eq_append {xs ys : List α} (h : (xs ++ ys).Nodup) :
    appendNew xs ys = xs ++ ys := by
  induction ys generalizing xs with
  | nil => rw [List.append_nil]; rfl
  | cons y ys ih =>
    have hnew : y ∉ xs := fun hy =>
      (List.nodup_append.mp h).2.2 y hy y List.mem_cons_self rfl
    rw [List.append_cons] at h ⊢
    rw [appendNew, if_neg hnew, ih h]

/-- The elements of a list each once are the list itself if none is repeated. -/
theorem appendNew_nil_iff {ys : List α} : appendNew [] ys = ys ↔ ys.Nodup := by
  constructor
  · intro h
    rw [← h]
    exact nodup_appendNew List.nodup_nil ys
  · exact fun h => appendNew_eq_append h

end

/-! ### The first element that fits -/

section

variable {α : Type} {fits : α → Bool} {change : α → α} {xs : List α}

theorem modifyFirst_eq_modify {t : Nat} (h : xs.findIdx? fits = some t) :
    modifyFirst fits change xs = xs.modify t change := by
  induction xs generalizing t with
  | nil => cases h
  | cons a rest ih =>
    rw [List.findIdx?_cons] at h
    unfold modifyFirst
    split at h
    · next ha =>
      cases h
      rw [if_pos ha]
      rfl
    · next ha =>
      obtain ⟨t', ht', rfl⟩ := Option.map_eq_some_iff.mp h
      rw [if_neg ha, ih ht', List.modify_succ_cons]

/-- To change the first element twice is to change it once by both. -/
theorem modifyFirst_modifyFirst {change' : α → α} (hfits : ∀ a, fits (change a) = fits a) :
    modifyFirst fits change' (modifyFirst fits change xs) =
      modifyFirst fits (fun a => change' (change a)) xs := by
  induction xs with
  | nil => rfl
  | cons a rest ih => cases ha : fits a <;> simp [modifyFirst, ha, hfits, ih]

/-- Changes commute if they do so on an element that both of them concern. -/
theorem modifyFirst_comm {fits' : α → Bool} {change' : α → α}
    (hfits : ∀ a, fits (change' a) = fits a) (hfits' : ∀ a, fits' (change a) = fits' a)
    (h : ∀ a, fits a = true → fits' a = true → change' (change a) = change (change' a)) :
    modifyFirst fits' change' (modifyFirst fits change xs) =
      modifyFirst fits change (modifyFirst fits' change' xs) := by
  induction xs with
  | nil => rfl
  | cons a rest ih =>
    cases ha : fits a with
    | true =>
      cases ha' : fits' a with
      | true => simp [modifyFirst, ha, ha', hfits, hfits', h a ha ha']
      | false => simp [modifyFirst, ha, ha', hfits']
    | false =>
      cases ha' : fits' a with
      | true => simp [modifyFirst, ha, ha', hfits]
      | false => simp [modifyFirst, ha, ha', ih]

/-- A change of an element that is chosen, before or after it is. -/
theorem filter_modifyFirst {p : α → Bool} (hp : ∀ a, p (change a) = p a)
    (hfits : ∀ a, fits a = true → p a = true) :
    (modifyFirst fits change xs).filter p = modifyFirst fits change (xs.filter p) := by
  induction xs with
  | nil => rfl
  | cons a rest ih =>
    cases ha : fits a with
    | true => simp [modifyFirst, ha, hp, hfits a ha]
    | false => cases hpa : p a <;> simp [modifyFirst, ha, hpa, ih]

theorem map_modifyFirst_comm {f : α → α} (hfits : ∀ a, fits (f a) = fits a)
    (h : ∀ a, fits a = true → f (change a) = change (f a)) :
    (modifyFirst fits change xs).map f = modifyFirst fits change (xs.map f) := by
  induction xs with
  | nil => rfl
  | cons a rest ih =>
    cases ha : fits a with
    | true => simp [modifyFirst, ha, hfits, h a ha]
    | false => simp [modifyFirst, ha, hfits, ih]

/-- Where a change adds to what an element is made of, it adds to what the list is made of. -/
theorem flatMap_modifyFirst_perm {β : Type} {parts : α → List β} {extra : List β}
    (hfits : ∃ a ∈ xs, fits a = true)
    (h : ∀ a, fits a = true → (parts (change a)).Perm (parts a ++ extra)) :
    ((modifyFirst fits change xs).flatMap parts).Perm (xs.flatMap parts ++ extra) := by
  induction xs with
  | nil => simp at hfits
  | cons a rest ih =>
    unfold modifyFirst
    split
    · next ha =>
      rw [List.flatMap_cons, List.flatMap_cons]
      refine ((h a ha).append_right _).trans ?_
      rw [List.append_assoc, List.append_assoc]
      exact List.perm_append_comm.append_left _
    · next ha =>
      have hrest : ∃ b ∈ rest, fits b = true := by
        obtain ⟨b, hb, hfits⟩ := hfits
        rcases List.mem_cons.mp hb with rfl | hb
        · exact absurd hfits ha
        · exact ⟨b, hb, hfits⟩
      rw [List.flatMap_cons, List.flatMap_cons, List.append_assoc]
      exact (ih hrest).append_left _

end

/-! ### The first element of each key -/

/-- Changes the first element of each key that is not among `seen`. -/
def mapFirsts {α κ : Type} [DecidableEq κ] (key : α → κ) (change : α → α) (seen : List κ) :
    List α → List α
  | [] => []
  | a :: rest =>
    if key a ∈ seen then a :: mapFirsts key change seen rest
    else change a :: mapFirsts key change (key a :: seen) rest

section

variable {α κ : Type} [DecidableEq κ] {key : α → κ} {change change' : α → α} {seen : List κ}
  {xs : List α}

theorem mapFirsts_congr (h : ∀ a, key a ∉ seen → change a = change' a) :
    mapFirsts key change seen xs = mapFirsts key change' seen xs := by
  induction xs generalizing seen with
  | nil => rfl
  | cons a rest ih =>
    unfold mapFirsts
    split
    · rw [ih h]
    · next hnew => rw [h a hnew, ih fun b hb => h b fun hmem => hb (List.mem_cons_of_mem _ hmem)]

theorem mapFirsts_eq_self (h : ∀ a, change a = a) : mapFirsts key change seen xs = xs := by
  induction xs generalizing seen with
  | nil => rfl
  | cons a rest ih =>
    unfold mapFirsts
    split
    · rw [ih]
    · rw [ih, h]

/-- To change the first element of one more key is to change it further than the others. -/
theorem modifyFirst_mapFirsts {k : κ} (f : α → α) (hkey : ∀ a, key (change a) = key a)
    (hk : k ∉ seen) :
    modifyFirst (fun a => key a == k) f (mapFirsts key change seen xs) =
      mapFirsts key (fun a => if key a = k then f (change a) else change a) seen xs := by
  induction xs generalizing seen with
  | nil => rfl
  | cons a rest ih =>
    unfold mapFirsts
    split
    · next hseen =>
      have hne : key a ≠ k := fun heq => hk (heq ▸ hseen)
      simp [modifyFirst, hne, ih hk]
    · next hnew =>
      by_cases heq : key a = k
      · subst heq
        -- what comes behind `a` may not have its key any more
        have hrest : mapFirsts key change (key a :: seen) rest =
            mapFirsts key (fun b => if key b = key a then f (change b) else change b)
              (key a :: seen) rest := by
          refine mapFirsts_congr fun b hb => ?_
          rw [if_neg fun hback => hb (List.mem_cons.mpr (.inl hback))]
        simp [modifyFirst, hkey, hrest]
      · have hk' : k ∉ key a :: seen := by
          rintro (_ | _)
          · exact heq rfl
          · contradiction
        simp [modifyFirst, hkey, heq, ih hk']

/-- The elements that are changed are those that are kept of each key. -/
theorem distinctBy_mapFirsts (hkey : ∀ a, key (change a) = key a) :
    distinctBy key seen (mapFirsts key change seen xs) = (distinctBy key seen xs).map change := by
  induction xs generalizing seen with
  | nil => rfl
  | cons a rest ih =>
    unfold mapFirsts
    split
    · next hseen => simp [distinctBy, hseen, ih]
    · next hnew => simp [distinctBy, hnew, hkey, ih]

/-- A choice that ignores the change, of elements that are not changed. -/
theorem filter_mapFirsts {p : α → Bool} (h : ∀ a, p (change a) = p a)
    (hfix : ∀ a, p a = true → change a = a) :
    (mapFirsts key change seen xs).filter p = xs.filter p := by
  induction xs generalizing seen with
  | nil => rfl
  | cons a rest ih =>
    unfold mapFirsts
    split
    · rw [List.filter_cons, List.filter_cons, ih]
    · rw [List.filter_cons, List.filter_cons, ih, h]
      split
      · next ha => rw [hfix a ha]
      · rfl

/-- An element is changed unless its key stands before it. -/
theorem mapFirsts_eq_zipIdx (key : α → κ) (change : α → α) (xs : List α) :
    mapFirsts key change [] xs = xs.zipIdx.map fun p =>
      if key p.1 ∈ (xs.take p.2).map key then p.1 else change p.1 := by
  have hbehind : ∀ (rest before : List α) (seen : List κ),
      (∀ k, k ∈ seen ↔ k ∈ before.map key) →
        mapFirsts key change seen rest = (rest.zipIdx before.length).map fun p =>
          if key p.1 ∈ ((before ++ rest).take p.2).map key then p.1 else change p.1 := by
    intro rest
    induction rest with
    | nil => exact fun _ _ _ => rfl
    | cons a rest ih =>
      intro before seen hseen
      have htail := ih (before ++ [a])
      rw [List.append_assoc, List.singleton_append, List.length_append,
        List.length_singleton] at htail
      rw [List.zipIdx_cons, List.map_cons, List.take_left]
      unfold mapFirsts
      split
      · next hmem =>
        rw [if_pos ((hseen _).mp hmem), htail seen fun k => by grind]
      · next hnew =>
        rw [if_neg (mt (hseen _).mpr hnew), htail (key a :: seen) fun k => by grind]
  exact hbehind xs [] [] fun _ => Iff.rfl

/-! ### Choosing by keys -/

/-- It matters only which keys of the list have been seen. -/
theorem distinctBy_congr {seen' : List κ} (h : ∀ a ∈ xs, key a ∈ seen ↔ key a ∈ seen') :
    distinctBy key seen xs = distinctBy key seen' xs := by
  induction xs generalizing seen seen' with
  | nil => rfl
  | cons a rest ih =>
    unfold distinctBy
    by_cases hseen : key a ∈ seen
    · rw [if_pos hseen, if_pos ((h a List.mem_cons_self).mp hseen)]
      exact ih fun b hb => h b (List.mem_cons_of_mem a hb)
    · rw [if_neg hseen, if_neg (mt (h a List.mem_cons_self).mpr hseen)]
      refine congrArg (a :: ·) (ih fun b hb => ?_)
      rw [List.mem_cons, List.mem_cons, h b (List.mem_cons_of_mem a hb)]

/-- The first element of a key is kept. -/
theorem find?_distinctBy {k : κ} (h : k ∉ seen) :
    (distinctBy key seen xs).find? (key · == k) = xs.find? (key · == k) := by
  induction xs generalizing seen with
  | nil => rfl
  | cons a rest ih =>
    unfold distinctBy
    split
    · next hseen =>
      have hne : key a ≠ k := fun heq => h (heq ▸ hseen)
      rw [List.find?_cons_of_neg (by simpa using hne), ih h]
    · by_cases hkey : key a = k
      · simp [hkey]
      · have hrest : k ∉ key a :: seen := by
          rw [List.mem_cons, not_or]
          exact ⟨Ne.symm hkey, h⟩
        simp [hkey, ih hrest]

/-- Elements can be chosen by their keys before or after the first of each key is kept. -/
theorem filter_distinctBy {p : α → Bool} (h : ∀ a b, key a = key b → p a = p b) :
    (distinctBy key seen xs).filter p = distinctBy key seen (xs.filter p) := by
  induction xs generalizing seen with
  | nil => rfl
  | cons a rest ih =>
    cases ha : p a with
    | true =>
      rw [List.filter_cons_of_pos ha]
      unfold distinctBy
      split
      · exact ih
      · rw [List.filter_cons_of_pos ha, ih]
    | false =>
      rw [List.filter_cons_of_neg (by simp [ha]), distinctBy]
      split
      · exact ih
      · rw [List.filter_cons_of_neg (by simp [ha]), ih]
        -- nothing that is chosen has the key of `a`
        refine distinctBy_congr fun b hb => ?_
        have hne : key b ≠ key a := fun heq => by
          have hb := (List.mem_filter.mp hb).2
          rw [h b a heq, ha] at hb
          cases hb
        rw [List.mem_cons, or_iff_right hne]

end

end ObjcMetadata
