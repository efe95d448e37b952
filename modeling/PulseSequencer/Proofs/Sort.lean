import Mathlib
import PulseSequencer.Sort

/-!
# Sorting keeps, orders and is stable

`Sort.sortBy` is insertion sort, so it has the theory of `List.insertionSort`.

* `Sort.perm_sortBy`, `Sort.pairwise_sortBy` : the same elements, in order;
* `Sort.pairwise_sortBy_of_lt` : the same where only the members can be compared;
* `Sort.sortBy_congr` : only the comparisons of members count;
* `Sort.sortBy_of_pairwise` : a list that is in order stays as it is;
* `Sort.filter_sortBy` : elements that are equal in the order keep their order;
* `Sort.eq_of_pairwise`, `Sort.sortBy_congr_filter`, `Sort.filter_partition` : nothing but their order counts;
* `Sort.sortBy_split` : members that come before all others are sorted by themselves.
-/

namespace PulseSequencer.Sort

variable {α : Type} {le : α → α → Bool}

theorem insertBy_eq_orderedInsert (x : α) (xs : List α) :
    insertBy le x xs = xs.orderedInsert (fun a b => le a b = true) x := by
  induction xs with
  | nil => rfl
  | cons y ys ih => rw [insertBy, List.orderedInsert_cons, ih]

theorem sortBy_eq_insertionSort (xs : List α) : sortBy le xs = xs.insertionSort fun a b => le a b = true := by
  induction xs with
  | nil => rfl
  | cons x xs ih => rw [sortBy, List.insertionSort_cons, ih, insertBy_eq_orderedInsert]

theorem perm_sortBy (le : α → α → Bool) (xs : List α) : (sortBy le xs).Perm xs := by
  rw [sortBy_eq_insertionSort]
  exact List.perm_insertionSort _ xs

@[simp] theorem mem_sortBy {x : α} {xs : List α} : x ∈ sortBy le xs ↔ x ∈ xs := (perm_sortBy le xs).mem_iff

@[simp] theorem length_sortBy (xs : List α) : (sortBy le xs).length = xs.length := (perm_sortBy le xs).length_eq

theorem nodup_sortBy {xs : List α} : (sortBy le xs).Nodup ↔ xs.Nodup := (perm_sortBy le xs).nodup_iff

theorem pairwise_sortBy (total : ∀ a b, le a b = true ∨ le b a = true)
    (trans : ∀ a b c, le a b = true → le b c = true → le a c = true) (xs : List α) :
    (sortBy le xs).Pairwise fun a b => le a b = true := by
  have : Std.Total (fun a b => le a b = true) := ⟨total⟩
  have : IsTrans α (fun a b => le a b = true) := ⟨trans⟩
  rw [sortBy_eq_insertionSort]
  exact List.pairwise_insertionSort _ xs

/-- Members that a strict order tells apart come out in that order. -/
theorem pairwise_sortBy_of_lt {lt : α → α → Prop} (trans : ∀ {a b c}, lt a b → lt b c → lt a c)
    (hle : ∀ a b, le a b = true ↔ ¬ lt b a) {xs : List α} (h : xs.Pairwise fun a b => lt a b ∨ lt b a) :
    (sortBy le xs).Pairwise lt := by
  have hinsert : ∀ {x : α} {ys : List α}, ys.Pairwise lt → (∀ y ∈ ys, lt x y ∨ lt y x) →
      (insertBy le x ys).Pairwise lt := by
    intro x ys hys hx
    induction ys with
    | nil => exact List.pairwise_singleton _ _
    | cons y ys ih =>
      obtain ⟨hy, hys⟩ := List.pairwise_cons.1 hys
      unfold insertBy
      split
      · rename_i hxy
        have hlt : lt x y := (hx y List.mem_cons_self).resolve_right ((hle x y).1 hxy)
        refine List.pairwise_cons.2 ⟨?_, List.pairwise_cons.2 ⟨hy, hys⟩⟩
        exact List.forall_mem_cons.2 ⟨hlt, fun z hz => trans hlt (hy z hz)⟩
      · rename_i hxy
        have hlt : lt y x := by
          by_contra hno
          exact hxy ((hle x y).2 hno)
        refine List.pairwise_cons.2 ⟨fun z hz => ?_, ih hys fun z hz => hx z (List.mem_cons_of_mem _ hz)⟩
        rw [insertBy_eq_orderedInsert, List.mem_orderedInsert] at hz
        rcases hz with rfl | hz
        · exact hlt
        · exact hy z hz
  induction xs with
  | nil => exact .nil
  | cons x xs ih =>
    obtain ⟨hx, hxs⟩ := List.pairwise_cons.1 h
    exact hinsert (ih hxs) fun y hy => hx y (mem_sortBy.1 hy)

theorem sortBy_of_pairwise {xs : List α} (h : xs.Pairwise fun a b => le a b = true) : sortBy le xs = xs := by
  rw [sortBy_eq_insertionSort]
  exact h.insertionSort_eq

/-- Elements that are not told apart by the order stay in their order. -/
theorem filter_sortBy {p : α → Bool} {xs : List α} (h : ∀ a ∈ xs, ∀ b ∈ xs, p a = true → p b = true → le a b = true) :
    (sortBy le xs).filter p = xs.filter p := by
  have hpairs : (xs.filter p).Pairwise fun a b => le a b = true := by
    refine List.pairwise_of_forall_mem_list fun a ha b hb => ?_
    rw [List.mem_filter] at ha hb
    exact h a ha.1 b hb.1 ha.2 hb.2
  have hsub : (xs.filter p).Sublist (sortBy le xs) := by
    rw [sortBy_eq_insertionSort]
    exact List.sublist_insertionSort hpairs List.filter_sublist
  have hsub' : (xs.filter p).Sublist ((sortBy le xs).filter p) := by
    have := hsub.filter p
    rwa [List.filter_filter, show (fun a => p a && p a) = p from funext fun a => Bool.and_self _] at this
  exact (hsub'.eq_of_length ((perm_sortBy le xs).filter p).length_eq.symm).symm

/-- Lists that are in order are equal if they agree on the members that the order does not tell apart. -/
theorem eq_of_pairwise (refl : ∀ a, le a a = true) {as : List α} : ∀ {bs : List α},
    as.Pairwise (fun a b => le a b = true) → bs.Pairwise (fun a b => le a b = true) →
    (∀ c, as.filter (fun a => le a c && le c a) = bs.filter fun a => le a c && le c a) → as = bs := by
  have hmem : ∀ {xs ys : List α}, (∀ c, xs.filter (fun a => le a c && le c a) = ys.filter fun a => le a c && le c a) →
      ∀ x ∈ xs, x ∈ ys := by
    intro xs ys h x hx
    have hx' : x ∈ xs.filter fun a => le a x && le x a := List.mem_filter.2 ⟨hx, by rw [refl]; rfl⟩
    rw [h x] at hx'
    exact (List.mem_filter.1 hx').1
  have hhead : ∀ {x y : α} {ys : List α}, (y :: ys).Pairwise (fun a b => le a b = true) → x ∈ y :: ys →
      le y x = true := by
    intro x y ys hys hx
    rcases List.mem_cons.1 hx with rfl | hx
    · exact refl x
    · exact (List.pairwise_cons.1 hys).1 x hx
  induction as with
  | nil =>
    intro bs _ _ h
    refine (List.eq_nil_iff_forall_not_mem.2 fun b hb => ?_).symm
    exact List.not_mem_nil (hmem (fun c => (h c).symm) b hb)
  | cons a as ih =>
    intro bs has hbs h
    cases bs with
    | nil => exact absurd (hmem h a List.mem_cons_self) List.not_mem_nil
    | cons b bs =>
      -- each head is in the other list, so neither comes before the other
      have hab : le a b = true := hhead has (hmem (fun c => (h c).symm) b List.mem_cons_self)
      have hba : le b a = true := hhead hbs (hmem h a List.mem_cons_self)
      have hfirst := h a
      rw [List.filter_cons_of_pos (by rw [refl]; rfl), List.filter_cons_of_pos (by rw [hab, hba]; rfl)] at hfirst
      obtain ⟨rfl, -⟩ := List.cons.inj hfirst
      refine congrArg (a :: ·) (ih has.of_cons hbs.of_cons fun c => ?_)
      have hc := h c
      rw [List.filter_cons, List.filter_cons] at hc
      split at hc
      · exact (List.cons.inj hc).2
      · exact hc

/-- A sort depends only on the order of the members that it does not tell apart. -/
theorem sortBy_congr_filter (total : ∀ a b, le a b = true ∨ le b a = true)
    (trans : ∀ a b c, le a b = true → le b c = true → le a c = true) {xs ys : List α}
    (h : ∀ c, xs.filter (fun a => le a c && le c a) = ys.filter fun a => le a c && le c a) :
    sortBy le xs = sortBy le ys := by
  have hfilter : ∀ (zs : List α) (c : α),
      (sortBy le zs).filter (fun a => le a c && le c a) = zs.filter fun a => le a c && le c a := by
    intro zs c
    refine filter_sortBy fun a _ b _ ha hb => ?_
    rw [Bool.and_eq_true] at ha hb
    exact trans a c b ha.1 hb.2
  refine eq_of_pairwise (fun a => (total a a).elim id id) (pairwise_sortBy total trans xs)
    (pairwise_sortBy total trans ys) fun c => ?_
  rw [hfilter, hfilter, h]

/-- A list may be split in two, if the members that `p` has are all in one of them. -/
theorem filter_partition {p q : α → Bool} {xs : List α}
    (h : ∀ a ∈ xs, ∀ b ∈ xs, p a = true → p b = true → q a = q b) :
    (xs.filter q ++ xs.filter fun x => !q x).filter p = xs.filter p := by
  rw [List.filter_append, List.filter_filter, List.filter_filter]
  by_cases hq : ∃ a ∈ xs, p a = true ∧ q a = true
  · obtain ⟨a, ha, hpa, hqa⟩ := hq
    have hall : ∀ x ∈ xs, p x = true → q x = true := fun x hx hpx => (h x hx a ha hpx hpa).trans hqa
    have hfirst : xs.filter (fun x => p x && q x) = xs.filter p := List.filter_congr fun x hx => by
      cases hpx : p x <;> simp [hpx, hall x hx]
    have hsecond : xs.filter (fun x => p x && !q x) = [] := List.filter_eq_nil_iff.2 fun x hx => by
      cases hpx : p x <;> simp [hpx, hall x hx]
    rw [hfirst, hsecond, List.append_nil]
  · have hnone : ∀ x ∈ xs, p x = true → q x = false := fun x hx hpx =>
      Bool.eq_false_iff.2 fun hqx => hq ⟨x, hx, hpx, hqx⟩
    have hfirst : xs.filter (fun x => p x && q x) = [] := List.filter_eq_nil_iff.2 fun x hx => by
      cases hpx : p x <;> simp [hpx, hnone x hx]
    have hsecond : xs.filter (fun x => p x && !q x) = xs.filter p := List.filter_congr fun x hx => by
      cases hpx : p x <;> simp [hpx, hnone x hx]
    rw [hfirst, hsecond, List.nil_append]

/-- Only the comparisons of members count. -/
theorem sortBy_congr {le' : α → α → Bool} {xs : List α} (h : ∀ a ∈ xs, ∀ b ∈ xs, le a b = le' a b) :
    sortBy le xs = sortBy le' xs := by
  have hinsert : ∀ {x : α} {ys : List α}, (∀ y ∈ ys, le x y = le' x y) → insertBy le x ys = insertBy le' x ys := by
    intro x ys hys
    induction ys with
    | nil => rfl
    | cons y ys ih =>
      rw [insertBy, insertBy, hys y List.mem_cons_self, ih fun z hz => hys z (List.mem_cons_of_mem _ hz)]
  induction xs with
  | nil => rfl
  | cons x xs ih =>
    rw [sortBy, sortBy, ih fun a ha b hb => h a (List.mem_cons_of_mem _ ha) b (List.mem_cons_of_mem _ hb)]
    exact hinsert fun y hy => h x List.mem_cons_self y (List.mem_cons_of_mem _ (mem_sortBy.1 hy))

theorem insertBy_append_left {x : α} {xs ys : List α} (h : ∀ y ∈ ys, le x y = true) :
    insertBy le x (xs ++ ys) = insertBy le x xs ++ ys := by
  induction xs with
  | nil =>
    cases ys with
    | nil => rfl
    | cons y ys =>
      show insertBy le x (y :: ys) = x :: y :: ys
      rw [insertBy, if_pos (h y List.mem_cons_self)]
  | cons z zs ih =>
    rw [List.cons_append, insertBy, insertBy, ih]
    split <;> rfl

theorem insertBy_append_right {x : α} {xs ys : List α} (h : ∀ y ∈ xs, le x y = false) :
    insertBy le x (xs ++ ys) = xs ++ insertBy le x ys := by
  induction xs with
  | nil => rfl
  | cons z zs ih =>
    have hz : ¬ le x z = true := by
      rw [h z List.mem_cons_self]
      exact Bool.false_ne_true
    rw [List.cons_append, insertBy, if_neg hz, ih fun y hy => h y (List.mem_cons_of_mem _ hy), List.cons_append]

/-- Members that come before all others are sorted by themselves, and so are the others. -/
theorem sortBy_split {p : α → Bool} {xs : List α}
    (h : ∀ a ∈ xs, ∀ b ∈ xs, p a = true → p b = false → le a b = true ∧ le b a = false) :
    sortBy le xs = sortBy le (xs.filter p) ++ sortBy le (xs.filter fun x => !p x) := by
  induction xs with
  | nil => rfl
  | cons x xs ih =>
    have ih := ih fun a ha b hb => h a (List.mem_cons_of_mem _ ha) b (List.mem_cons_of_mem _ hb)
    rw [sortBy, ih]
    cases hx : p x with
    | true =>
      rw [List.filter_cons_of_pos hx, List.filter_cons_of_neg (by rw [hx]; exact Bool.false_ne_true), sortBy]
      refine insertBy_append_left fun y hy => ?_
      obtain ⟨hy, hpy⟩ := List.mem_filter.1 (mem_sortBy.1 hy)
      rw [Bool.not_eq_true'] at hpy
      exact (h x List.mem_cons_self y (List.mem_cons_of_mem _ hy) hx hpy).1
    | false =>
      rw [List.filter_cons_of_neg (by rw [hx]; exact Bool.false_ne_true), List.filter_cons_of_pos (by rw [hx]; rfl),
        sortBy]
      refine insertBy_append_right fun y hy => ?_
      obtain ⟨hy, hpy⟩ := List.mem_filter.1 (mem_sortBy.1 hy)
      exact (h y (List.mem_cons_of_mem _ hy) x List.mem_cons_self hpy hx).2

end PulseSequencer.Sort
