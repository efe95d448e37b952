import PulseSequencer.Proofs.Outline

/-!
# Drafts that grow

Instructions are added at the end of the list. A new jump is entered at its target, nothing else changes.

* `Draft.push`, `Draft.pushJump` : one more instruction, one more jump;
* `Draft.Grows` : what a growing draft keeps, and what is new in it;
* `Draft.Linked.push`, `Draft.Linked.pushJump`, `Draft.Leading` : links and SETs of the grown draft;
* `Draft.Continues`, `Draft.continues_push`, `Draft.continues_pushJump` : all of it together, for one step and many.
-/

namespace PulseSequencer.Draft

/-- The draft with one more instruction. -/
def push (d : Draft) (i : Instruction) : Draft :=
  { d with board := (d.board.add i).2, list := d.list ++ [d.board.size] }

/-- The draft with one more jump, which its target knows of. -/
def pushJump (d : Draft) (time : Int) (g : Label) (always : Bool) (channel threshold : Binary64)
    (block : Option String) : Draft :=
  { d with board := (d.board.addJump time g always channel threshold block).2, list := d.list ++ [d.board.size] }

variable {d d' : Draft} {i : Instruction} {l : Label}

@[simp] theorem list_push (d : Draft) (i : Instruction) : (d.push i).list = d.list ++ [d.board.size] := rfl

@[simp] theorem size_push (d : Draft) (i : Instruction) : (d.push i).board.size = d.board.size + 1 := Board.size_add _ _

theorem get_push_of_lt (i : Instruction) (h : l < d.board.size) : (d.push i).board.get l = d.board.get l :=
  Board.get_add_of_lt i h

@[simp] theorem get_push_size (d : Draft) (i : Instruction) : (d.push i).board.get d.board.size = i :=
  Board.get_add_size _ _

/-! ## What stays -/

/-- The draft `d'` has the instructions of `d` and new ones behind them. These are in no block or in one of the given
names, and are SETs or among the given jumps. Jumps may have been entered at the labels `opens`; the rest is as it
was. -/
structure Grows (names : List String) (opens jumps : List Label) (d d' : Draft) : Prop where
  size_le : d.board.size ≤ d'.board.size
  get_eq : ∀ l, l < d.board.size → l ∉ opens → d'.board.get l = d.board.get l
  alike : ∀ l, l < d.board.size → ∃ rs, d'.board.get l = { d.board.get l with reachedBy := rs }
  list : ∃ new, d'.list = d.list ++ new ∧ ∀ l ∈ new, d.board.size ≤ l ∧ l < d'.board.size ∧
    (∀ n, (d'.board.get l).block = some n → n ∈ names) ∧ (l ∈ jumps ∨ (d'.board.get l).isSet = true)

namespace Grows

variable {names names' : List String} {opens opens' jumps jumps' : List Label} {d'' : Draft}

theorem refl (names : List String) (opens jumps : List Label) (d : Draft) : Grows names opens jumps d d :=
  ⟨le_refl _, fun _ _ _ => rfl, fun l _ => ⟨(d.board.get l).reachedBy, rfl⟩, [], by simp, by simp⟩

theorem trans (h : Grows names opens jumps d d') (h' : Grows names opens' jumps' d' d'')
    (hopens : ∀ l ∈ opens', l ∈ opens ∨ d.board.size ≤ l) : Grows names opens (jumps ++ jumps') d d'' := by
  obtain ⟨new, hlist, hnew⟩ := h.list
  obtain ⟨new', hlist', hnew'⟩ := h'.list
  refine ⟨h.size_le.trans h'.size_le, fun l hl hopen => ?_, fun l hl => ?_, new ++ new', ?_, fun l hl => ?_⟩
  · rw [h'.get_eq l (lt_of_lt_of_le hl h.size_le), h.get_eq l hl hopen]
    intro hmem
    rcases hopens l hmem with h1 | h1
    · exact hopen h1
    · exact absurd hl (Nat.not_lt.2 h1)
  · obtain ⟨rs, hrs⟩ := h.alike l hl
    obtain ⟨rs', hrs'⟩ := h'.alike l (lt_of_lt_of_le hl h.size_le)
    exact ⟨rs', by rw [hrs', hrs]⟩
  · rw [hlist', hlist, List.append_assoc]
  · rcases List.mem_append.1 hl with hl | hl
    · obtain ⟨h1, h2, h3, h4⟩ := hnew l hl
      obtain ⟨rs, hrs⟩ := h'.alike l h2
      refine ⟨h1, lt_of_lt_of_le h2 h'.size_le, by rw [hrs]; exact h3, h4.imp (List.mem_append_left _) fun hset => ?_⟩
      rw [hrs]
      exact hset
    · obtain ⟨h1, h2, h3, h4⟩ := hnew' l hl
      exact ⟨h.size_le.trans h1, h2, h3, h4.imp_left (List.mem_append_right _)⟩

theorem mono (h : Grows names opens jumps d d') (hnames : ∀ n ∈ names, n ∈ names')
    (hopens : ∀ l ∈ opens, l ∈ opens' ∨ d.board.size ≤ l) : Grows names' opens' jumps d d' := by
  obtain ⟨new, hlist, hnew⟩ := h.list
  refine ⟨h.size_le, fun l hl hopen => h.get_eq l hl fun hmem => ?_, h.alike, new, hlist, fun l hl => ?_⟩
  · rcases hopens l hmem with h1 | h1
    · exact hopen h1
    · exact absurd hl (Nat.not_lt.2 h1)
  · obtain ⟨h1, h2, h3, h4⟩ := hnew l hl
    exact ⟨h1, h2, fun n hn => hnames n (h3 n hn), h4⟩

/-- What is not old is a jump or a SET. -/
theorem mem_cases (h : Grows names opens jumps d d') (hl : l ∈ d'.list) :
    l ∈ d.list ∨
      ((∀ n, (d'.board.get l).block = some n → n ∈ names) ∧ (l ∈ jumps ∨ (d'.board.get l).isSet = true)) := by
  obtain ⟨new, hlist, hnew⟩ := h.list
  rw [hlist, List.mem_append] at hl
  exact hl.imp_right fun hl => (hnew l hl).2.2

theorem mem_list (h : Grows names opens jumps d d') (hl : l ∈ d.list) : l ∈ d'.list := by
  obtain ⟨new, hlist, -⟩ := h.list
  rw [hlist]
  exact List.mem_append_left _ hl

/-- An instruction of another block was there before, at the same tick. -/
theorem blocked (h : Grows names opens jumps d d') (hvalid : ∀ l ∈ d.list, l < d.board.size) (hl : l ∈ d'.list)
    {n : String} (hn : (d'.board.get l).block = some n) (hnot : n ∉ names) :
    l ∈ d.list ∧ (d.board.get l).block = some n ∧ d'.board.time l = d.board.time l := by
  rcases h.mem_cases hl with hl | ⟨hnew, -⟩
  · obtain ⟨rs, hrs⟩ := h.alike l (hvalid l hl)
    rw [hrs] at hn
    exact ⟨hl, hn, by rw [Board.time, Board.time, hrs]⟩
  · exact absurd (hnew n hn) hnot

theorem action_eq (h : Grows names opens jumps d d') (hl : l < d.board.size) :
    (d'.board.get l).action = (d.board.get l).action := by
  obtain ⟨rs, hrs⟩ := h.alike l hl
  rw [hrs]

end Grows

theorem grows_push {names : List String} (hset : i.isSet = true) (hi : ∀ n, i.block = some n → n ∈ names) :
    Grows names [] [] d (d.push i) := by
  refine ⟨by simp, fun l hl _ => get_push_of_lt i hl, fun l hl => ⟨(d.board.get l).reachedBy, ?_⟩,
    [d.board.size], rfl, fun l hl => ?_⟩
  · rw [get_push_of_lt i hl]
  · rw [List.mem_singleton.1 hl, get_push_size, size_push]
    exact ⟨le_refl _, Nat.lt_succ_self _, hi, .inr hset⟩

section Jump

variable {time : Int} {g : Label} {always : Bool} {channel threshold : Binary64} {block : Option String}

theorem grows_pushJump {names : List String} (hg : g < d.board.size) (hb : ∀ n, block = some n → n ∈ names) :
    Grows names [g] [d.board.size] d (d.pushJump time g always channel threshold block) := by
  have hget := Board.get_addJump d.board time g always channel threshold block hg
  refine ⟨?_, fun l hl hne => ?_, fun l hl => ?_, [d.board.size], rfl, fun l hl => ?_⟩
  · simp [pushJump]
  · rw [pushJump, hget, if_neg hl.ne, if_neg (by simpa using hne)]
  · rw [pushJump, hget, if_neg hl.ne]
    split
    · rename_i heq
      exact ⟨_, by rw [heq]⟩
    · exact ⟨(d.board.get l).reachedBy, rfl⟩
  · rw [List.mem_singleton.1 hl, pushJump, hget, if_pos rfl]
    exact ⟨le_refl _, by simp, hb, .inl (List.mem_singleton.2 rfl)⟩

theorem get_pushJump_size (hg : g < d.board.size) :
    (d.pushJump time g always channel threshold block).board.get d.board.size =
      ⟨time, block, none, [], .jump always (if always then 0 else channel) (if always then 0 else threshold) g⟩ := by
  rw [pushJump, Board.get_addJump _ _ _ _ _ _ _ hg, if_pos rfl]

theorem get_pushJump_target (hg : g < d.board.size) :
    (d.pushJump time g always channel threshold block).board.get g =
      { d.board.get g with reachedBy := (d.board.get g).reachedBy ++ [d.board.size] } := by
  rw [pushJump, Board.get_addJump _ _ _ _ _ _ _ hg, if_neg hg.ne, if_pos rfl]

end Jump

/-! ## Links -/

theorem nodup_append_size (hd : d.Linked) : (d.list ++ [d.board.size]).Nodup := by
  refine hd.nodup.append (List.nodup_singleton _) fun l hl hl' => ?_
  rw [List.mem_singleton.1 hl'] at hl
  exact lt_irrefl _ (hd.valid _ hl)

theorem Linked.push (hd : d.Linked) (htarget : i.target? = none) (hreached : i.reachedBy = []) : (d.push i).Linked := by
  have hold : ∀ l ∈ d.list, (d.push i).board.get l = d.board.get l := fun l hl => get_push_of_lt i (hd.valid l hl)
  refine ⟨fun l hl => ?_, nodup_append_size hd, fun l hl g hg => ?_, fun g hg l hl => ?_⟩
  · rw [size_push]
    rcases List.mem_append.1 hl with hl | hl
    · exact Nat.lt_succ_of_lt (hd.valid l hl)
    · rw [List.mem_singleton.1 hl]
      exact Nat.lt_succ_self _
  · rcases List.mem_append.1 hl with hl | hl
    · rw [hold l hl] at hg
      obtain ⟨hmem, hland, hreach⟩ := hd.target l hl g hg
      rw [hold g hmem]
      exact ⟨List.mem_append_left _ hmem, hland, hreach⟩
    · rw [List.mem_singleton.1 hl, get_push_size, htarget] at hg
      cases hg
  · rcases List.mem_append.1 hg with hg | hg
    · rw [hold g hg] at hl
      obtain ⟨hmem, htarget⟩ := hd.reached g hg l hl
      exact ⟨List.mem_append_left _ hmem, by rw [hold l hmem]; exact htarget⟩
    · rw [List.mem_singleton.1 hg, get_push_size, hreached] at hl
      cases hl

theorem Linked.pushJump (hd : d.Linked) {time : Int} {g : Label} {always : Bool} {channel threshold : Binary64}
    {block : Option String} (hg : g ∈ d.list) (hland : (d.board.get g).isSet = true ∨ (d.board.get g).action = .stop) :
    (d.pushJump time g always channel threshold block).Linked := by
  have hget := Board.get_addJump d.board time g always channel threshold block (hd.valid g hg)
  have hold : ∀ l ∈ d.list, ((d.pushJump time g always channel threshold block).board.get l).target? =
      (d.board.get l).target? ∧ ((d.pushJump time g always channel threshold block).board.get l).isSet =
      (d.board.get l).isSet ∧ ((d.pushJump time g always channel threshold block).board.get l).action =
      (d.board.get l).action := fun l hl => by
    have hgrow : Grows block.toList [g] [d.board.size] d (d.pushJump time g always channel threshold block) :=
      grows_pushJump (hd.valid g hg) (by simp)
    obtain ⟨rs, hrs⟩ := hgrow.alike l (hd.valid l hl)
    rw [hrs]
    exact ⟨rfl, rfl, rfl⟩
  have hreached : ∀ x ∈ d.list, ((d.pushJump time g always channel threshold block).board.get x).reachedBy =
      if x = g then (d.board.get g).reachedBy ++ [d.board.size] else (d.board.get x).reachedBy := fun x hx => by
    rw [Draft.pushJump, hget, if_neg (hd.valid x hx).ne]
    split <;> rfl
  refine ⟨fun l hl => ?_, nodup_append_size hd, fun l hl x hx => ?_, fun x hx l hl => ?_⟩
  · rw [Draft.pushJump, Board.size_addJump]
    rcases List.mem_append.1 hl with hl | hl
    · exact Nat.lt_succ_of_lt (hd.valid l hl)
    · rw [List.mem_singleton.1 hl]
      exact Nat.lt_succ_self _
  · rcases List.mem_append.1 hl with hl | hl
    · rw [(hold l hl).1] at hx
      obtain ⟨hmem, hland', hreach⟩ := hd.target l hl x hx
      obtain ⟨-, h2, h3⟩ := hold x hmem
      refine ⟨List.mem_append_left _ hmem, by rw [h2, h3]; exact hland', ?_⟩
      rw [hreached x hmem]
      split
      · rename_i heq
        exact List.mem_append_left _ (heq ▸ hreach)
      · exact hreach
    · rw [List.mem_singleton.1 hl] at hx ⊢
      rw [get_pushJump_size (hd.valid g hg)] at hx
      cases hx
      obtain ⟨-, h2, h3⟩ := hold g hg
      exact ⟨List.mem_append_left _ hg, by rw [h2, h3]; exact hland, by rw [hreached g hg, if_pos rfl]; simp⟩
  · rcases List.mem_append.1 hx with hx | hx
    · rw [hreached x hx] at hl
      -- the new jump is the only one that was not known before
      have hcases : l ∈ (d.board.get x).reachedBy ∨ (x = g ∧ l = d.board.size) := by
        split at hl
        · rename_i heq
          subst heq
          rcases List.mem_append.1 hl with hl | hl
          · exact .inl hl
          · exact .inr ⟨rfl, List.mem_singleton.1 hl⟩
        · exact .inl hl
      rcases hcases with hl | ⟨rfl, rfl⟩
      · obtain ⟨hmem, htarget⟩ := hd.reached x hx l hl
        exact ⟨List.mem_append_left _ hmem, by rw [(hold l hmem).1]; exact htarget⟩
      · exact ⟨by simp [Draft.pushJump], by rw [get_pushJump_size (hd.valid x hg)]; rfl⟩
    · rw [List.mem_singleton.1 hx, get_pushJump_size (hd.valid g hg)] at hl
      cases hl

/-! ## SETs -/

theorem sets_push (hvalid : ∀ l ∈ d.list, l < d.board.size) :
    (d.push i).sets = d.sets ++ if i.isSet then [d.board.size] else [] := by
  rw [Draft.sets, list_push, List.filter_append, Draft.sets]
  congr 1
  · exact List.filter_congr fun l hl => by rw [get_push_of_lt i (hvalid l hl)]
  · simp only [List.filter_cons, get_push_size, List.filter_nil]

theorem hostAt_congr {b b' : Board} {sets : List Label}
    (h : ∀ l ∈ sets, b'.time l = b.time l ∧ (b'.get l).block = (b.get l).block) (time : Int) :
    hostAt b' sets time = hostAt b sets time := by
  unfold hostAt
  rw [← List.head?_filterMap, ← List.head?_filterMap]
  refine congrArg List.head? (List.filterMap_congr fun l hl => ?_)
  obtain ⟨h1, h2⟩ := h l hl
  rw [Board.time_eq, Board.time_eq] at h1
  rw [h1, h2]

/-- The SETs of `d` are SETs of `d'` with the same tick, block and drive, in the same order and in front of all
others. -/
structure Leading (d d' : Draft) : Prop where
  sets : ∃ new, d'.sets = d.sets ++ new
  same : ∀ l ∈ d.sets, d'.board.time l = d.board.time l ∧ (d'.board.get l).block = (d.board.get l).block ∧
    (d'.board.get l).drive = (d.board.get l).drive

theorem Leading.leads (h : d.Leading d') (hl : d.Leads l) : d'.Leads l := by
  obtain ⟨hl, hblock⟩ := hl
  obtain ⟨new, hsets⟩ := h.sets
  obtain ⟨h1, h2, -⟩ := h.same l hl
  refine ⟨by rw [hsets]; exact List.mem_append_left _ hl, ?_⟩
  rw [h1, h2]
  rcases hblock with hb | hb
  · exact .inl hb
  · cases hblock : (d.board.get l).block with
    | none => exact .inl rfl
    | some name =>
      refine .inr ?_
      have hold := hostAt_congr (fun l hl => ⟨(h.same l hl).1, (h.same l hl).2.1⟩) (d.board.time l)
      rw [← hb, hblock] at hold
      rw [hostAt, hsets, List.findSome?_append, show List.findSome? _ d.sets = some name from hold, Option.some_or]

theorem Leading.trans {d'' : Draft} (h : d.Leading d') (h' : d'.Leading d'') : d.Leading d'' := by
  obtain ⟨new, hsets⟩ := h.sets
  obtain ⟨new', hsets'⟩ := h'.sets
  refine ⟨⟨new ++ new', by rw [hsets', hsets, List.append_assoc]⟩, fun l hl => ?_⟩
  obtain ⟨h1, h2, h3⟩ := h.same l hl
  obtain ⟨h1', h2', h3'⟩ := h'.same l (by rw [hsets]; exact List.mem_append_left _ hl)
  exact ⟨h1'.trans h1, h2'.trans h2, h3'.trans h3⟩

theorem leading_push (hd : d.Linked) : d.Leading (d.push i) := by
  refine ⟨⟨_, sets_push hd.valid⟩, fun l hl => ?_⟩
  rw [Board.time, Board.time, get_push_of_lt i (hd.valid l (mem_sets.1 hl).1)]
  exact ⟨rfl, rfl, rfl⟩

section Jump

variable {time : Int} {g : Label} {always : Bool} {channel threshold : Binary64} {block : Option String}

theorem sets_pushJump (hd : d.Linked) (hg : g ∈ d.list) :
    (d.pushJump time g always channel threshold block).sets = d.sets := by
  have hgrow : Grows block.toList [g] [d.board.size] d (d.pushJump time g always channel threshold block) :=
    grows_pushJump (hd.valid g hg) (by simp)
  have hnew : List.filter (fun l => ((d.pushJump time g always channel threshold block).board.get l).isSet)
      [d.board.size] = [] := by
    refine List.filter_eq_nil_iff.2 fun l hl => ?_
    rw [List.mem_singleton.1 hl, get_pushJump_size (hd.valid g hg)]
    exact Bool.false_ne_true
  rw [Draft.sets, show (d.pushJump time g always channel threshold block).list = d.list ++ [d.board.size] from rfl,
    List.filter_append, hnew, List.append_nil, Draft.sets]
  refine List.filter_congr fun l hl => ?_
  rw [Instruction.isSet, Instruction.isSet, hgrow.action_eq (hd.valid l hl)]

theorem leading_pushJump (hd : d.Linked) (hg : g ∈ d.list) :
    d.Leading (d.pushJump time g always channel threshold block) := by
  have hgrow : Grows block.toList [g] [d.board.size] d (d.pushJump time g always channel threshold block) :=
    grows_pushJump (hd.valid g hg) (by simp)
  refine ⟨⟨[], by rw [sets_pushJump hd hg, List.append_nil]⟩, fun l hl => ?_⟩
  obtain ⟨rs, hrs⟩ := hgrow.alike l (hd.valid l (mem_sets.1 hl).1)
  rw [Board.time, Board.time, hrs]
  exact ⟨rfl, rfl, rfl⟩

end Jump

/-! ## All of it -/

/-- The draft `d'` has grown out of `d`, is linked, and does not contradict the signal. -/
structure Continues (signal : Int → Int) (lines : Int) (names : List String) (opens jumps : List Label) (d d' : Draft) :
    Prop where
  grows : Grows names opens jumps d d'
  leading : d.Leading d'
  linked : d'.Linked
  faithful : d'.Faithful signal lines

section Continues

variable {signal : Int → Int} {lines : Int} {names names' : List String} {opens opens' jumps jumps' : List Label}
  {d'' : Draft}

theorem Continues.refl (hd : d.Linked) (hf : d.Faithful signal lines) : Continues signal lines names opens jumps d d :=
  ⟨.refl names opens jumps d, ⟨⟨[], by simp⟩, fun _ _ => ⟨rfl, rfl, rfl⟩⟩, hd, hf⟩

theorem Continues.trans (h : Continues signal lines names opens jumps d d')
    (h' : Continues signal lines names opens' jumps' d' d'') (hopens : ∀ l ∈ opens', l ∈ opens ∨ d.board.size ≤ l) :
    Continues signal lines names opens (jumps ++ jumps') d d'' :=
  ⟨h.grows.trans h'.grows hopens, h.leading.trans h'.leading, h'.linked, h'.faithful⟩

theorem Continues.mono (h : Continues signal lines names opens jumps d d') (hnames : ∀ n ∈ names, n ∈ names')
    (hopens : ∀ l ∈ opens, l ∈ opens' ∨ d.board.size ≤ l) : Continues signal lines names' opens' jumps d d' :=
  ⟨h.grows.mono hnames hopens, h.leading, h.linked, h.faithful⟩

/-- A draft that goes on from outlines has them as well. -/
theorem Continues.outlines (h : Continues signal lines names opens jumps d d') (ho : d.Outlines signal lines) :
    d'.Outlines signal lines := by
  refine ⟨h.faithful, fun t j hj hne => ?_⟩
  obtain ⟨l, hlead, htime, hmask⟩ := ho.edges t j hj hne
  obtain ⟨h1, -, h3⟩ := h.leading.same l hlead.1
  exact ⟨l, h.leading.leads hlead, by rw [h1, htime], by rw [h3]; exact hmask⟩

theorem continues_push (hd : d.Linked) (hf : d.Faithful signal lines) (hset : i.isSet = true)
    (hi : ∀ n, i.block = some n → n ∈ names) (hreached : i.reachedBy = []) (hin : i.drive.Inside)
    (htrue : i.drive.TrueTo lines (signal i.time)) : Continues signal lines names [] [] d (d.push i) := by
  have hold : ∀ l ∈ d.sets, (d.push i).board.get l = d.board.get l := fun l hl =>
    get_push_of_lt i (hd.valid l (mem_sets.1 hl).1)
  have hcases : ∀ l ∈ (d.push i).sets, l ∈ d.sets ∨ l = d.board.size := fun l hl => by
    rwa [sets_push hd.valid, if_pos hset, List.mem_append, List.mem_singleton] at hl
  refine ⟨grows_push hset hi, leading_push hd, hd.push (Instruction.target?_of_isSet hset) hreached, fun l hl => ?_,
    fun l hl => ?_⟩
  · rcases hcases l hl with hl | rfl
    · rw [hold l hl]
      exact hf.inside l hl
    · rwa [get_push_size]
  · rcases hcases l hl with hl | rfl
    · rw [Board.time, hold l hl]
      exact hf.trueTo l hl
    · rwa [Board.time, get_push_size]

theorem continues_pushJump (hd : d.Linked) (hf : d.Faithful signal lines) {time : Int} {g : Label} {always : Bool}
    {channel threshold : Binary64} {block : Option String} (hb : ∀ n, block = some n → n ∈ names) (hg : g ∈ d.list)
    (hland : (d.board.get g).isSet = true ∨ (d.board.get g).action = .stop) :
    Continues signal lines names [g] [d.board.size] d (d.pushJump time g always channel threshold block) := by
  have hlead : d.Leading (d.pushJump time g always channel threshold block) := leading_pushJump hd hg
  refine ⟨grows_pushJump (hd.valid g hg) hb, hlead, hd.pushJump hg hland, fun l hl => ?_, fun l hl => ?_⟩
  · rw [sets_pushJump hd hg] at hl
    rw [(hlead.same l hl).2.2]
    exact hf.inside l hl
  · rw [sets_pushJump hd hg] at hl
    rw [(hlead.same l hl).2.2, (hlead.same l hl).1]
    exact hf.trueTo l hl

end Continues

end PulseSequencer.Draft
