import PulseSequencer.Proofs.Draft

/-!
# The SETs that are united

A SET belongs to the group of its tick and its block; one without a block to that of the tick's host. The groups are the
keys of the SETs, each once.

* `Draft.distinct` : its members and their order;
* `Draft.keyOf`, `Draft.mem_groups`, `Draft.mem_members` : the group of a SET, and the SETs of a group;
* `Draft.findSome?_groups`, `Draft.head?_groups` : the host of a tick is the first group there.
-/

namespace PulseSequencer.Draft

/-! ## Each element once -/

section Distinct

variable {α : Type} [DecidableEq α]

theorem distinct_append_singleton (xs : List α) (x : α) :
    distinct (xs ++ [x]) = if x ∈ distinct xs then distinct xs else distinct xs ++ [x] := by
  simp only [distinct, List.foldl_append, List.foldl_cons, List.foldl_nil, List.contains_eq_mem, decide_eq_true_eq]

@[simp] theorem mem_distinct {xs : List α} {x : α} : x ∈ distinct xs ↔ x ∈ xs := by
  induction xs using List.reverseRecOn with
  | nil => simp [distinct]
  | append_singleton xs y ih =>
    rw [distinct_append_singleton]
    split
    · rename_i hy
      rw [List.mem_append, List.mem_singleton, ih]
      constructor
      · exact .inl
      · rintro (h | rfl)
        · exact h
        · exact ih.1 hy
    · simp [ih]

theorem nodup_distinct (xs : List α) : (distinct xs).Nodup := by
  induction xs using List.reverseRecOn with
  | nil => simp [distinct]
  | append_singleton xs y ih =>
    rw [distinct_append_singleton]
    split
    · exact ih
    · rename_i hy
      exact ih.append (List.nodup_singleton y) (by simpa using hy)

theorem filter_distinct (p : α → Bool) (xs : List α) : (distinct xs).filter p = distinct (xs.filter p) := by
  induction xs using List.reverseRecOn with
  | nil => simp [distinct]
  | append_singleton xs y ih =>
    rw [distinct_append_singleton, List.filter_append]
    by_cases hy : p y = true
    · rw [show [y].filter p = [y] by simp [hy], distinct_append_singleton, ← ih]
      simp only [List.mem_filter, hy, and_true]
      split <;> simp [hy, List.filter_append]
    · rw [show [y].filter p = [] by simp [hy], List.append_nil, ← ih]
      split <;> simp [hy, List.filter_append]

theorem head?_distinct (xs : List α) : (distinct xs).head? = xs.head? := by
  induction xs using List.reverseRecOn with
  | nil => simp [distinct]
  | append_singleton xs y ih =>
    rw [distinct_append_singleton]
    split
    · rename_i hy
      rw [ih, List.head?_append_of_ne_nil]
      rintro rfl
      simp [distinct] at hy
    · rw [List.head?_append, List.head?_append, ih]

theorem distinct_of_nodup {xs : List α} (h : xs.Nodup) : distinct xs = xs := by
  induction xs using List.reverseRecOn with
  | nil => rfl
  | append_singleton xs y ih =>
    obtain ⟨hxs, -, hdisjoint⟩ := List.nodup_append'.1 h
    rw [distinct_append_singleton, ih hxs, if_neg fun hy => hdisjoint hy (List.mem_singleton.2 rfl)]

end Distinct

/-! ## Hosts and groups -/

variable {b : Board} {sets : List Label}

theorem hostAt_eq_none {time : Int} :
    hostAt b sets time = none ↔ ∀ l ∈ sets, b.time l = time → (b.get l).block = none := by
  rw [hostAt, List.findSome?_eq_none_iff]
  refine forall₂_congr fun l _ => ?_
  by_cases h : (b.get l).time = time <;> simp [h, Board.time_eq]

theorem exists_of_hostAt {time : Int} {name : String} (h : hostAt b sets time = some name) :
    ∃ l ∈ sets, b.time l = time ∧ (b.get l).block = some name := by
  obtain ⟨l, hl, h⟩ := List.exists_of_findSome?_eq_some h
  split at h
  · exact ⟨l, hl, by assumption, h⟩
  · cases h

/-- The group of a SET: its tick, with its block or else the host of the tick. -/
def keyOf (b : Board) (sets : List Label) (l : Label) : Group :=
  ⟨b.time l, (b.get l).block.or (hostAt b sets (b.time l))⟩

theorem mem_groups {g : Group} : g ∈ groups b sets ↔ ∃ l ∈ sets, keyOf b sets l = g := by
  simp only [groups, List.mem_append, mem_distinct, List.mem_map, List.mem_filter, Bool.and_eq_true,
    Option.isNone_iff_eq_none, Option.isSome_iff_exists]
  constructor
  · rintro (⟨l, ⟨hl, name, hname⟩, rfl⟩ | ⟨l, ⟨hl, hfree, hhost⟩, rfl⟩)
    · exact ⟨l, hl, by simp [keyOf, hname, Board.time_eq]⟩
    · exact ⟨l, hl, by simp [keyOf, hfree, Board.time_eq, hhost]⟩
  · rintro ⟨l, hl, rfl⟩
    cases hblock : (b.get l).block with
    | some name => exact .inl ⟨l, ⟨hl, name, hblock⟩, by simp [keyOf, hblock, Board.time_eq]⟩
    | none =>
      cases hhost : hostAt b sets (b.time l) with
      | none => exact .inr ⟨l, ⟨hl, hblock, hhost⟩, by rw [keyOf, hblock, hhost]; rfl⟩
      | some name =>
        obtain ⟨m, hm, htime, hm'⟩ := exists_of_hostAt hhost
        exact .inl ⟨m, ⟨hm, name, hm'⟩, by rw [keyOf, hblock, hhost, hm', ← htime]; rfl⟩

theorem nodup_groups (b : Board) (sets : List Label) : (groups b sets).Nodup := by
  refine (nodup_distinct _).append (nodup_distinct _) fun g h1 h2 => ?_
  simp only [mem_distinct, List.mem_map, List.mem_filter] at h1 h2
  obtain ⟨l, ⟨-, hl⟩, rfl⟩ := h1
  obtain ⟨m, -, hm⟩ := h2
  rw [← (Group.mk.inj hm).2] at hl
  cases hl

theorem hostAt_of_free_group {time : Int} (h : ⟨time, none⟩ ∈ groups b sets) : hostAt b sets time = none := by
  obtain ⟨l, -, hl⟩ := mem_groups.1 h
  obtain ⟨rfl, h2⟩ := Group.mk.inj hl
  exact (Option.or_eq_none_iff.1 h2).2

/-- No block has a group at the tick of a free one. -/
theorem block_of_free_group {time : Int} {block : Option String} (hfree : ⟨time, none⟩ ∈ groups b sets)
    (h : ⟨time, block⟩ ∈ groups b sets) : block = none := by
  have hhost := hostAt_of_free_group hfree
  obtain ⟨l, hl, hkey⟩ := mem_groups.1 h
  obtain ⟨rfl, hblock⟩ := Group.mk.inj hkey
  rw [← hblock, hhost, hostAt_eq_none.1 hhost l hl rfl]
  rfl

theorem mem_members {g : Group} {l : Label} (hg : g ∈ groups b sets) :
    l ∈ members b sets g ↔ l ∈ sets ∧ keyOf b sets l = g := by
  obtain ⟨time, block⟩ := g
  cases block with
  | none =>
    have hhost := hostAt_of_free_group hg
    simp only [members, keyOf, Option.isSome_none, Bool.false_and, Bool.false_eq_true, if_false, List.mem_filter,
      beq_iff_eq, Group.mk.injEq, Option.or_eq_none_iff, Board.time_eq]
    constructor
    · rintro ⟨⟨hl, rfl⟩, hfree⟩
      exact ⟨hl, rfl, hfree, hhost⟩
    · rintro ⟨hl, rfl, hfree, -⟩
      exact ⟨⟨hl, rfl⟩, hfree⟩
  | some name =>
    have hkey : keyOf b sets l = ⟨time, some name⟩ ↔
        (b.get l).time = time ∧
          ((b.get l).block = some name ∨ ((b.get l).block = none ∧ hostAt b sets time = some name)) := by
      simp only [keyOf, Group.mk.injEq, Option.or_eq_some_iff, Board.time_eq]
      constructor
      · rintro ⟨rfl, h⟩
        exact ⟨rfl, h⟩
      · rintro ⟨rfl, h⟩
        exact ⟨rfl, h⟩
    rw [hkey, members]
    by_cases hhost : hostAt b sets time = some name
    · simp only [Option.isSome_some, hhost, BEq.rfl, Bool.and_self, if_true, List.mem_append, List.mem_filter,
        beq_iff_eq, Option.isNone_iff_eq_none, and_true]
      tauto
    · simp only [Option.isSome_some, beq_eq_false_iff_ne.2 hhost, Bool.and_false, Bool.false_eq_true, if_false,
        List.mem_filter, beq_iff_eq, hhost, and_false, or_false]
      tauto

theorem keyOf_mem_groups {l : Label} (hl : l ∈ sets) : keyOf b sets l ∈ groups b sets := mem_groups.2 ⟨l, hl, rfl⟩

/-- A SET is in its own group. -/
theorem mem_members_keyOf {l : Label} (hl : l ∈ sets) : l ∈ members b sets (keyOf b sets l) :=
  (mem_members (keyOf_mem_groups hl)).2 ⟨hl, rfl⟩

/-- The block of a group is that of one of its SETs. -/
theorem exists_blocked {l : Label} (hl : l ∈ sets) {name : String} (h : (keyOf b sets l).block = some name) :
    ∃ m ∈ members b sets (keyOf b sets l), (b.get m).block = some name := by
  -- the SET itself is in the block, or the host of its tick is
  rcases Option.or_eq_some_iff.1 h with hb | ⟨hb, hhost⟩
  · exact ⟨l, mem_members_keyOf hl, hb⟩
  · obtain ⟨m, hm, htime, hm'⟩ := exists_of_hostAt hhost
    refine ⟨m, (mem_members (keyOf_mem_groups hl)).2 ⟨hm, ?_⟩, hm'⟩
    rw [keyOf, keyOf, hm', htime, hb, hhost]
    rfl

/-- The only block among the SETs of a group is the block of the group. -/
theorem block_of_filterMap_members {l : Label} (hl : l ∈ sets) {block : Option String}
    (h : (members b sets (keyOf b sets l)).filterMap (fun m => (b.get m).block) = block.toList) :
    block = (keyOf b sets l).block := by
  cases hkey : (keyOf b sets l).block with
  | none =>
    have hnil : block.toList = [] := by
      refine h ▸ List.filterMap_eq_nil_iff.2 fun m hm => ?_
      have hm' := congrArg Group.block ((mem_members (keyOf_mem_groups hl)).1 hm).2
      rw [hkey] at hm'
      exact (Option.or_eq_none_iff.1 hm').1
    exact Option.toList_eq_nil_iff.1 hnil
  | some name =>
    obtain ⟨m, hm, hm'⟩ := exists_blocked hl hkey
    have hmem : name ∈ block.toList := h ▸ List.mem_filterMap.2 ⟨m, hm, hm'⟩
    exact Option.mem_toList.1 hmem

theorem nodup_members (h : sets.Nodup) (g : Group) : (members b sets g).Nodup := by
  unfold members
  split
  · rename_i hg
    refine ((h.filter _).filter _).append ((h.filter _).filter _) fun l h1 h2 => ?_
    simp only [List.mem_filter, beq_iff_eq, Option.isNone_iff_eq_none] at h1 h2
    rw [← h1.2, h2.2] at hg
    simp at hg
  · exact (h.filter _).filter _

/-! ## The first group of a tick -/

/-- The first group of a tick is that of its host, or the free one. -/
theorem head?_groups {time : Int} (h : ∃ l ∈ sets, b.time l = time) :
    ((groups b sets).filter fun g => g.time == time).head? = some ⟨time, hostAt b sets time⟩ := by
  have hblocked : ((distinct ((sets.filter fun l => (b.get l).block.isSome).map fun l =>
      (⟨(b.get l).time, (b.get l).block⟩ : Group))).filter fun g => g.time == time).head? =
      (sets.find? fun l => (b.get l).time == time && (b.get l).block.isSome).map fun l => ⟨time, (b.get l).block⟩ := by
    rw [filter_distinct, head?_distinct, List.filter_map, List.head?_map, List.filter_filter, List.head?_filter]
    cases hfind : sets.find? fun l => (b.get l).time == time && (b.get l).block.isSome with
    | none => simp [hfind]
    | some l =>
      have hl := List.find?_some hfind
      simp only [Bool.and_eq_true, beq_iff_eq] at hl
      simp [hfind, hl.1]
  rw [groups, List.filter_append, List.head?_append, hblocked]
  cases hfind : sets.find? fun l => (b.get l).time == time && (b.get l).block.isSome with
  | some l =>
    obtain ⟨hl, as, bs, hsets, has⟩ := List.find?_eq_some_iff_append.1 hfind
    simp only [Bool.and_eq_true, beq_iff_eq, Bool.not_eq_true'] at hl has
    have hnone : as.findSome? (fun l => if (b.get l).time = time then (b.get l).block else none) = none := by
      refine List.findSome?_eq_none_iff.2 fun x hx => ?_
      have := has x hx
      split
      · rename_i hx'
        simpa [hx'] using this
      · rfl
    obtain ⟨name, hname⟩ := Option.isSome_iff_exists.1 hl.2
    simp [hostAt, hsets, List.findSome?_append, hnone, List.findSome?_cons, hl.1, hname]
  | none =>
    have hhost : hostAt b sets time = none := by
      refine hostAt_eq_none.2 fun l hl ht => ?_
      simpa [show (b.get l).time = time from ht] using List.find?_eq_none.1 hfind l hl
    obtain ⟨l, hl, ht⟩ := h
    have hmem : ⟨time, none⟩ ∈ (distinct ((sets.filter fun l => (b.get l).block.isNone &&
        (hostAt b sets (b.get l).time).isNone).map fun l => (⟨(b.get l).time, none⟩ : Group))).filter
          fun g => g.time == time := by
      have hfree := hostAt_eq_none.1 hhost l hl ht
      simp only [List.mem_filter, mem_distinct, List.mem_map, beq_self_eq_true, and_true]
      rw [Board.time_eq] at ht
      exact ⟨l, ⟨hl, by simp [hfree, ht, hhost]⟩, by rw [ht]⟩
    obtain ⟨g, hg⟩ := Option.isSome_iff_exists.1 (List.isSome_head?.2 (List.ne_nil_of_mem hmem))
    have hg' := List.mem_of_head? hg
    simp only [List.mem_filter, mem_distinct, List.mem_map, beq_iff_eq] at hg'
    obtain ⟨⟨m, -, rfl⟩, rfl⟩ := hg'
    rw [hg, hhost]
    rfl

theorem findSome?_groups (b : Board) (sets : List Label) (time : Int) :
    ((groups b sets).filter fun g => g.time == time).findSome? Group.block = hostAt b sets time := by
  cases hhost : hostAt b sets time with
  | some name =>
    obtain ⟨l, hl, ht, -⟩ := exists_of_hostAt hhost
    obtain ⟨rest, hrest⟩ := List.head?_eq_some_iff.1 (head?_groups ⟨l, hl, ht⟩)
    rw [hrest, List.findSome?_cons, hhost]
  | none =>
    refine List.findSome?_eq_none_iff.2 fun g hg => ?_
    obtain ⟨hg, ht⟩ := List.mem_filter.1 hg
    obtain ⟨l, hl, rfl⟩ := mem_groups.1 hg
    have ht' : b.time l = time := by simpa [keyOf] using ht
    simp [keyOf, ht', hhost, hostAt_eq_none.1 hhost l hl ht']

end PulseSequencer.Draft
