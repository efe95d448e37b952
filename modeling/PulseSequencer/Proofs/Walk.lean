import PulseSequencer.Proofs.Assembly
import PulseSequencer.Proofs.Machine

/-!
# Programs refine timed lists

A timed list can be run as it is: a position moves along the ticks, the instruction at the position takes effect, and
nothing happens at ticks without one. The words of the list, its gaps filled, do the same on the machine.

* `Draft.Timed` : lists that can be run; `Walk`, `Draft.walkStep` : such a run and one tick of it;
* `Draft.Realizes` : words made from a timed list; `Draft.Realizes.step` : one tick of both runs;
* `Draft.runFor_eq_walk` : the whole runs.
-/

namespace PulseSequencer

/-! ## Runs along the list -/

/-- A run along a timed list: where it stands on the line of ticks, and what it shows. -/
structure Walk where
  position : Int
  bus : Int
  tick : Nat
  jumps : Nat
  halted : Option Halt
deriving DecidableEq

def Walk.initial (idle : Int) : Walk := { position := 0, bus := idle, tick := 0, jumps := 0, halted := none }

namespace Draft

/-- A list of SETs, JUMPs and an END on ticks of their own. It starts with a SET at tick 0 and ends with the END; its
jumps have whole fields and land on a SET or the END. -/
structure Timed (d : Draft) : Prop where
  increasing : d.list.Pairwise fun x y => d.board.time x < d.board.time y
  first : ∃ l rest, d.list = l :: rest ∧ (d.board.get l).isSet = true ∧ d.board.time l = 0
  last : ∃ init l, d.list = init ++ [l] ∧ (d.board.get l).action = .stop
  noWait : ∀ l ∈ d.list, ∀ duration, (d.board.get l).action ≠ .wait duration
  jumps : ∀ l ∈ d.list, ∀ always channel threshold g, (d.board.get l).action = .jump always channel threshold g →
    channel.isWhole = true ∧ threshold.isWhole = true ∧ g ∈ d.list ∧
      ((d.board.get g).isSet = true ∨ (d.board.get g).action = .stop)

/-- The instruction of the list at a tick. -/
def at? (d : Draft) (tick : Int) : Option Label := d.list.find? fun l => d.board.time l == tick

/-- One tick of a run along the list. -/
def walkStep (d : Draft) (polarity : Int) (counts : Nat → Nat → Int) (maxJumps maxTicks : Nat) (w : Walk) : Walk :=
  let next := { w with position := w.position + 1, tick := w.tick + 1 }
  if w.halted.isSome then w
  else if maxTicks ≤ w.tick then { w with halted := some .tickLimit }
  else
    match (d.at? w.position).map fun l => (d.board.get l).action with
    | some (.set drive) => { next with bus := Bits.xor drive.value polarity }
    | some (.jump always channel threshold g) =>
      if always || decide (threshold ≤ .finite (counts channel.toWhole.toNat w.tick)) then
        if maxJumps < w.jumps + 1 then { next with jumps := w.jumps + 1, halted := some .jumpLimit }
        else { next with jumps := w.jumps + 1, position := d.board.time g }
      else next
    | some .stop => { next with halted := some .ended }
    | _ => next

namespace Timed

variable {d : Draft}

theorem valid (h : d.Timed) : ∀ l ∈ d.list, l < d.board.size := by
  intro l hl
  by_contra hlt
  exact h.noWait l hl _ (by rw [Board.get_of_size_le (Nat.not_lt.1 hlt)]; rfl)

theorem at?_time (h : d.Timed) {l : Label} (hl : l ∈ d.list) : d.at? (d.board.time l) = some l := by
  obtain ⟨pre, post, hlist⟩ := List.append_of_mem hl
  have hinc := h.increasing
  rw [hlist, List.pairwise_append] at hinc
  rw [at?, hlist, List.find?_append, List.find?_eq_none.2, Option.none_or, List.find?_cons_of_pos (by simp)]
  intro x hx
  have := hinc.2.2 x hx l List.mem_cons_self
  simp only [beq_iff_eq]
  omega

theorem at?_eq_none {d : Draft} {tick : Int} (h : ∀ l ∈ d.list, d.board.time l ≠ tick) : d.at? tick = none :=
  List.find?_eq_none.2 fun l hl => by simpa using h l hl

/-- Only the END is last. -/
theorem ne_nil_of_not_stop (h : d.Timed) {pre rest : List Label} {l : Label} (hlist : d.list = pre ++ l :: rest)
    (hl : (d.board.get l).action ≠ .stop) : rest ≠ [] := by
  rintro rfl
  obtain ⟨init, e, hlast, he⟩ := h.last
  obtain ⟨-, h2⟩ := List.append_inj' (hlist.symm.trans hlast) rfl
  cases h2
  exact hl he

end Timed

/-! ## Words of a list -/

/-- The words are those of `d` with its gaps filled, the filled list being `f`. -/
structure Realizes (d f : Draft) (polarity : Int) (words : List Word) : Prop where
  timed : d.Timed
  board : d.board.Extends f.board
  covers : Covers f.board (-1) none d.list f.list
  encodable : ∀ l ∈ f.list, f.Encodable polarity l
  words : words = f.list.map fun l => (f.linked polarity l).toWord

theorem Timed.closed {d : Draft} (h : d.Timed) {l g : Label} (hl : l ∈ d.list)
    (hg : (d.board.get l).target? = some g) : g ∈ d.list := by
  unfold Instruction.target? at hg
  split at hg
  · rename_i hact
    cases hg
    exact (h.jumps l hl _ _ _ _ hact).2.2.1
  · cases hg

theorem Timed.realizes {d f a : Draft} {polarity : Int} {words : List Word} (h : d.Timed) (hfill : d.fillGaps = .ok f)
    (haddr : (f.applyPolarity polarity).assignAddresses = .ok a) (henc : a.encode = .ok words) :
    d.Realizes f polarity words := by
  obtain ⟨hext, hcov⟩ := covers_of_fillGaps h.valid h.increasing hfill
  have hsched := hcov.scheduled hext h.valid fun l hl g hg => h.closed hl hg
  obtain ⟨a', ha', hspec⟩ := hsched.exists_addressed polarity
  cases haddr.symm.trans ha'
  obtain ⟨hall, hwords⟩ := (hspec.encode_eq_ok hsched).1 henc
  exact ⟨h, hext, hcov, hall, hwords⟩

/-! ## One tick of both runs -/

/-- The machine stands where the walk does: it has the instructions from `rest` on in front of it, which cover the list
from `ls` on, after what is left of a wait. The bus is that of the SET before, unless the next instruction is about to
set it or to end the run. -/
structure Follows (d f : Draft) (polarity : Int) (s : Machine.State) (w : Walk) (pre ls done rest : List Label)
    (held : Option Label) : Prop where
  list : d.list = pre ++ ls
  filled : f.list = done ++ rest
  pc : s.pc = done.length + 1
  covers : Covers f.board (w.position + s.delay - 1) held ls rest
  ne_nil : ls ≠ []
  passed : ∀ l ∈ pre, d.board.time l < w.position
  bus : (∀ h ∈ held, s.bus = Bits.xor (f.board.get h).drive.value polarity) ∨
    ∃ g post, ls = g :: post ∧ f.board.time g = w.position ∧
      ((f.board.get g).isSet = true ∨ (f.board.get g).action = .stop)

/-- The machine shows what the walk shows, and follows it as long as it runs. -/
structure Agrees (d f : Draft) (polarity : Int) (s : Machine.State) (w : Walk) : Prop where
  bus : s.bus = w.bus
  tick : s.tick = w.tick
  jumps : s.jumps = w.jumps
  halted : s.halted = w.halted
  follows : s.halted = none → ∃ pre ls done rest held, d.Follows f polarity s w pre ls done rest held

/-- A tick of the machine that executes the word of `x`. -/
theorem step_execute {f : Draft} {polarity : Int} {words : List Word} (henc : ∀ l ∈ f.list, f.Encodable polarity l)
    (hwords : words = f.list.map fun l => (f.linked polarity l).toWord) {m : Machine} (hm : m.words = words.toArray)
    {s : Machine.State} (hh : s.halted = none) (ht : s.tick < m.maxTicks) (hdelay : s.delay = 0)
    {done rest : List Label} {x : Label} (hf : f.list = done ++ x :: rest) (hpc : s.pc = done.length + 1) :
    m.step s = .ok (m.execute (f.linked polarity x) s) := by
  have hword : m.wordAt? s.pc = some (f.linked polarity x).toWord := by
    rw [Machine.wordAt?, hm, hwords, hf, hpc]
    simp
  rw [Machine.step, hh, if_neg (by simp), if_neg (Nat.not_le.2 ht), if_neg (by omega), hword]
  simp only
  rw [Operation.ofWord_toWord (henc x (by rw [hf]; simp)).fits]

section Step

variable {d f : Draft} {polarity : Int} {words : List Word} {m : Machine} {s : Machine.State} {w : Walk}
  {pre ls done rest : List Label} {held : Option Label}

/-- The walk passes a tick without an instruction. -/
theorem walkStep_of_none (hh : w.halted = none) (ht : w.tick < m.maxTicks) (hat : d.at? w.position = none) :
    d.walkStep polarity m.counts m.maxJumps m.maxTicks w =
      { w with position := w.position + 1, tick := w.tick + 1 } := by
  simp [walkStep, hh, Nat.not_le.2 ht, hat]

/-- No instruction of the list stands at a tick that the filled list has yet to reach. -/
theorem Follows.at?_eq_none (h : d.Realizes f polarity words) (hf : d.Follows f polarity s w pre ls done rest held)
    (hpos : ∀ l ∈ ls, w.position < f.board.time l) : d.at? w.position = none := by
  refine Timed.at?_eq_none fun l hl => ?_
  rw [hf.list, List.mem_append] at hl
  rcases hl with hl | hl
  · exact (hf.passed l hl).ne
  · have hmem : l ∈ d.list := by rw [hf.list]; exact List.mem_append_right _ hl
    have := hpos l hl
    rw [Board.time, h.board.get_eq l (h.timed.valid l hmem)] at this
    exact this.ne'

/-- Both runs go on to the instruction behind `l`. -/
theorem Follows.advance (h : d.Realizes f polarity words) (hfol : d.Follows f polarity s w pre ls done rest held)
    {l : Label} {post rest' : List Label} {s' : Machine.State} {w' : Walk} (hls : ls = l :: post)
    (hrest : rest = l :: rest') (hpos : f.board.time l = w.position)
    (hcov : Covers f.board (f.board.time l) (heldAfter f.board held l) post rest')
    (hstop : (d.board.get l).action ≠ .stop) (hpc : s'.pc = s.pc + 1) (hdelay : s'.delay = 0)
    (hw : w'.position = w.position + 1)
    (hbus : ∀ g ∈ heldAfter f.board held l, s'.bus = Bits.xor (f.board.get g).drive.value polarity) :
    ∃ pre ls done rest held, d.Follows f polarity s' w' pre ls done rest held := by
  subst hls hrest
  have hl : l ∈ d.list := by rw [hfol.list]; simp
  have htime : d.board.time l = w.position := by
    rw [← hpos, Board.time, Board.time, h.board.get_eq l (h.timed.valid l hl)]
  refine ⟨pre ++ [l], post, done ++ [l], rest', heldAfter f.board held l, by rw [hfol.list]; simp,
    by rw [hfol.filled]; simp, by rw [hpc, hfol.pc]; simp, ?_, h.timed.ne_nil_of_not_stop hfol.list hstop,
    fun x hx => ?_, .inl hbus⟩
  · have : w'.position + s'.delay - 1 = f.board.time l := by rw [hw, hdelay, hpos]; omega
    rw [this]
    exact hcov
  · rw [hw]
    rcases List.mem_append.1 hx with hx | hx
    · have := hfol.passed x hx
      omega
    · rw [List.mem_singleton.1 hx]
      omega

/-- A taken jump: the machine goes to the word of the target, the walk to its tick. -/
theorem Realizes.land (h : d.Realizes f polarity words) {g : Label} {s' : Machine.State} {w' : Walk} (hg : g ∈ d.list)
    (hland : (d.board.get g).isSet = true ∨ (d.board.get g).action = .stop)
    (hpc : s'.pc = f.list.idxOf g + 1) (hdelay : s'.delay = 0) (hw : w'.position = d.board.time g) :
    ∃ pre ls done rest held, d.Follows f polarity s' w' pre ls done rest held := by
  obtain ⟨pre, post, done, rest, held, hd, hfl, hcov⟩ := h.covers.split hg
  have hget : f.board.get g = d.board.get g := h.board.get_eq g (h.timed.valid g hg)
  have htime : f.board.time g = w'.position := by rw [hw, Board.time, hget, Board.time]
  have hnot : g ∉ done := by
    have hinc := h.covers.increasing
    rw [hfl, List.pairwise_append] at hinc
    exact fun hmem => lt_irrefl _ (hinc.2.2 g hmem g List.mem_cons_self)
  refine ⟨pre, g :: post, done, g :: rest, held, hd, hfl, ?_, ?_, by simp, fun x hx => ?_,
    .inr ⟨g, post, rfl, htime, ?_⟩⟩
  · rw [hpc, hfl, List.idxOf_append_of_notMem hnot, List.idxOf_cons_self, Nat.add_zero]
  · have : w'.position + s'.delay - 1 = f.board.time g - 1 := by rw [htime, hdelay]; omega
    rw [this]
    exact hcov
  · have hinc := h.timed.increasing
    rw [hd, List.pairwise_append] at hinc
    rw [hw]
    exact hinc.2.2 x hx g List.mem_cons_self
  · rwa [hget]

/-- A tick of the machine that ends as the walk's tick does, and stops exactly when the machine halts. -/
def TickAgrees (d f : Draft) (polarity : Int) (m : Machine) (s : Machine.State) (w : Walk) : Prop :=
  ∃ go s', m.step s = .ok (go, s') ∧ (go = false → s'.halted ≠ none) ∧
    d.Agrees f polarity s' (d.walkStep polarity m.counts m.maxJumps m.maxTicks w)

theorem TickAgrees.of_execute {op : Operation} (hstep : m.step s = .ok (m.execute op s))
    (h : d.Agrees f polarity (m.execute op s).2 (d.walkStep polarity m.counts m.maxJumps m.maxTicks w)) :
    d.TickAgrees f polarity m s w :=
  ⟨(m.execute op s).1, (m.execute op s).2, hstep, Machine.execute_halts m op s, h⟩

variable (h : d.Realizes f polarity words) (hm : m.words = words.toArray) (hag : d.Agrees f polarity s w)
  (hh : s.halted = none) (ht : s.tick < m.maxTicks) (hfol : d.Follows f polarity s w pre ls done rest held)

include h hag hh ht hfol

theorem tickAgrees_of_delay (hdelay : 0 < s.delay) : d.TickAgrees f polarity m s w := by
  have hls : ∀ l ∈ ls, w.position < f.board.time l := fun l hl => by
    have := hfol.covers.lt_time l (hfol.covers.subset l hl)
    omega
  refine ⟨true, { s with delay := s.delay - 1, tick := s.tick + 1 }, ?_, by simp, ?_⟩
  · rw [Machine.step, hh, if_neg (by simp), if_neg (Nat.not_le.2 ht), if_pos hdelay]
  · rw [walkStep_of_none (hag.halted ▸ hh) (hag.tick ▸ ht) (hfol.at?_eq_none h hls)]
    refine ⟨hag.bus, by simp [hag.tick], hag.jumps, hag.halted, fun _ => ⟨pre, ls, done, rest, held, ?_⟩⟩
    refine ⟨hfol.list, hfol.filled, hfol.pc, ?_, hfol.ne_nil, fun l hl => ?_, .inl ?_⟩
    · have : w.position + 1 + ((s.delay - 1 : Nat) : Int) - 1 = w.position + s.delay - 1 := by omega
      rw [this]
      exact hfol.covers
    · have := hfol.passed l hl
      simp only
      omega
    · rcases hfol.bus with hbus | ⟨g, post, hg, hpos, -⟩
      · exact hbus
      · exact absurd hpos (hls g (by rw [hg]; exact List.mem_cons_self)).ne'

include hm

/-- The filler of a gap: the walk rests, the machine holds the bus or starts to wait. -/
theorem tickAgrees_of_filler {x : Label} {rest' : List Label} {op : Operation} (hdelay : s.delay = 0)
    (hrest : rest = x :: rest') (hls : ∀ l ∈ ls, w.position < f.board.time l) (hlink : f.linked polarity x = op)
    (hbus : (m.execute op s).2.bus = s.bus) (htick : (m.execute op s).2.tick = s.tick + 1)
    (hjumps : (m.execute op s).2.jumps = s.jumps) (hhalt : (m.execute op s).2.halted = s.halted)
    (hpc : (m.execute op s).2.pc = s.pc + 1)
    (hcov : Covers f.board (w.position + (m.execute op s).2.delay) held ls rest') : d.TickAgrees f polarity m s w := by
  subst hrest
  have hstep := step_execute h.encodable h.words hm hh ht hdelay hfol.filled hfol.pc
  rw [hlink] at hstep
  refine .of_execute hstep ?_
  rw [walkStep_of_none (hag.halted ▸ hh) (hag.tick ▸ ht) (hfol.at?_eq_none h hls)]
  refine ⟨hbus.trans hag.bus, by rw [htick, hag.tick], hjumps.trans hag.jumps, hhalt.trans hag.halted,
    fun _ => ⟨pre, ls, done ++ [x], rest', held, ?_⟩⟩
  refine ⟨hfol.list, by rw [hfol.filled]; simp, by rw [hpc, hfol.pc]; simp, ?_, hfol.ne_nil, fun l hl => ?_, .inl ?_⟩
  · rwa [show w.position + 1 + ((m.execute op s).2.delay : Int) - 1 = w.position + (m.execute op s).2.delay by omega]
  · have := hfol.passed l hl
    simp only
    omega
  · rw [hbus]
    rcases hfol.bus with hbus | ⟨g, post, hg, hpos, -⟩
    · exact hbus
    · exact absurd hpos (hls g (by rw [hg]; exact List.mem_cons_self)).ne'

section Member

variable {l : Label} {post rest' : List Label} (hdelay : s.delay = 0) (hls : ls = l :: post) (hrest : rest = l :: rest')
  (hpos : f.board.time l = w.position)

include hdelay hls hrest hpos

omit hag in
/-- An instruction of the list: the walk is at it, and its word is the one that the machine executes. -/
theorem member_next : l ∈ d.list ∧ f.board.get l = d.board.get l ∧ d.at? w.position = some l ∧
    m.step s = .ok (m.execute (f.linked polarity l) s) := by
  have hl : l ∈ d.list := by rw [hfol.list, hls]; simp
  have hget : f.board.get l = d.board.get l := h.board.get_eq l (h.timed.valid l hl)
  refine ⟨hl, hget, ?_, step_execute h.encodable h.words hm hh ht hdelay (hrest ▸ hfol.filled) hfol.pc⟩
  rw [← hpos, Board.time, hget]
  exact h.timed.at?_time hl

variable (hcov : Covers f.board (f.board.time l) (heldAfter f.board held l) post rest')

theorem tickAgrees_of_stop (hact : (d.board.get l).action = .stop) : d.TickAgrees f polarity m s w := by
  obtain ⟨-, hget, hat, hstep⟩ := member_next h hm hh ht hfol hdelay hls hrest hpos
  have hw : w.halted = none := hag.halted ▸ hh
  have htw : ¬ m.maxTicks ≤ w.tick := Nat.not_le.2 (hag.tick ▸ ht)
  rw [show f.linked polarity l = .stop by simp only [linked, hget, hact]] at hstep
  refine .of_execute hstep ?_
  simp only [Machine.execute, walkStep, hw, Option.isSome_none, Bool.false_eq_true, if_false, htw, hat, Option.map_some,
    hact]
  exact ⟨hag.bus, by simp [hag.tick], hag.jumps, rfl, by simp⟩

include hcov

theorem tickAgrees_of_set {drive : Drive} (hact : (d.board.get l).action = .set drive) :
    d.TickAgrees f polarity m s w := by
  obtain ⟨-, hget, hat, hstep⟩ := member_next h hm hh ht hfol hdelay hls hrest hpos
  have hw : w.halted = none := hag.halted ▸ hh
  have htw : ¬ m.maxTicks ≤ w.tick := Nat.not_le.2 (hag.tick ▸ ht)
  have henc := h.encodable l (by rw [hfol.filled, hrest]; simp)
  have hset : (d.board.get l).isSet = true := Instruction.isSet_iff.2 ⟨drive, hact⟩
  have hval : (Bits.unsigned (Bits.xor drive.value polarity) : Int) = Bits.xor drive.value polarity := by
    simp only [Encodable, hget, hact] at henc
    exact Bits.unsigned_xor_eq (lt_trans henc (by decide))
  rw [show f.linked polarity l = .set (Bits.unsigned (Bits.xor drive.value polarity)) by
    simp only [linked, hget, hact]] at hstep
  refine .of_execute hstep ?_
  simp only [Machine.execute, walkStep, hw, Option.isSome_none, Bool.false_eq_true, if_false, htw, hat, Option.map_some,
    hact]
  refine ⟨hval, by simp [hag.tick], hag.jumps, hh, fun _ => ?_⟩
  refine hfol.advance h hls hrest hpos hcov (by simp [hact]) rfl hdelay rfl fun g hg => ?_
  rw [heldAfter, hget, if_pos hset] at hg
  cases hg
  rw [hget, Instruction.drive, hact]
  exact hval

theorem tickAgrees_of_jump {always : Bool} {channel threshold : Binary64} {g : Label}
    (hact : (d.board.get l).action = .jump always channel threshold g) : d.TickAgrees f polarity m s w := by
  obtain ⟨hl, hget, hat, hstep⟩ := member_next h hm hh ht hfol hdelay hls hrest hpos
  have hw : w.halted = none := hag.halted ▸ hh
  have htw : ¬ m.maxTicks ≤ w.tick := Nat.not_le.2 (hag.tick ▸ ht)
  have henc := h.encodable l (by rw [hfol.filled, hrest]; simp)
  obtain ⟨hch, hth, hg, hland⟩ := h.timed.jumps l hl _ _ _ _ hact
  -- the word and the instruction compare the count with the same threshold
  have htest : decide (((threshold.toWhole.toNat : Nat) : Int) ≤ m.counts channel.toWhole.toNat s.tick) =
      decide (threshold ≤ .finite (m.counts channel.toWhole.toNat w.tick)) := by
    simp only [Encodable, hget, hact] at henc
    obtain ⟨-, -, hrange, -⟩ := henc
    rw [not_or] at hrange
    have := (Binary64.toWhole_mem (by decide) hrange.1 hrange.2).1
    rw [hag.tick, Int.toNat_of_nonneg this]
    exact decide_eq_decide.2 (Binary64.le_finite_iff hth _).symm
  rw [show f.linked polarity l = .jump always channel.toWhole.toNat threshold.toWhole.toNat (f.list.idxOf g + 1) by
    simp only [linked, hget, hact]] at hstep
  refine .of_execute hstep ?_
  simp only [Machine.execute, walkStep, hw, Option.isSome_none, Bool.false_eq_true, if_false, htw, hat, Option.map_some,
    hact, htest, hag.jumps]
  split_ifs with htaken hlimit
  · exact ⟨hag.bus, by simp [hag.tick], rfl, rfl, by simp⟩
  · exact ⟨hag.bus, by simp [hag.tick], rfl, hh, fun _ => h.land hg hland rfl hdelay rfl⟩
  · refine ⟨hag.bus, by simp [hag.tick], rfl, hh, fun _ => ?_⟩
    refine hfol.advance h hls hrest hpos hcov (by simp [hact]) rfl hdelay rfl fun x hx => ?_
    have hnot : (f.board.get l).isSet = false := by rw [hget, Instruction.isSet, hact]
    rw [heldAfter, if_neg (by simp [hnot])] at hx
    -- a jump leaves the bus alone, and it is not the SET or END that a landing waits for
    rcases hfol.bus with hbus | ⟨y, _, hy, -, hland⟩
    · exact hbus x hx
    · cases hls.symm.trans hy
      rw [hnot, hget, hact] at hland
      simp at hland

/-- An instruction of the list. -/
theorem tickAgrees_of_member : d.TickAgrees f polarity m s w := by
  obtain ⟨hl, -⟩ := member_next h hm hh ht hfol hdelay hls hrest hpos
  cases hact : (d.board.get l).action with
  | wait duration => exact absurd hact (h.timed.noWait l hl duration)
  | set drive => exact tickAgrees_of_set h hm hag hh ht hfol hdelay hls hrest hpos hcov hact
  | jump always channel threshold g => exact tickAgrees_of_jump h hm hag hh ht hfol hdelay hls hrest hpos hcov hact
  | stop => exact tickAgrees_of_stop h hm hag hh ht hfol hdelay hls hrest hpos hact

end Member

omit hfol in
/-- One tick of both runs. -/
theorem tickAgrees : d.TickAgrees f polarity m s w := by
  obtain ⟨pre, ls, done, rest, held, hfol⟩ := hag.follows hh
  by_cases hdelay : 0 < s.delay
  · exact tickAgrees_of_delay h hag hh ht hfol hdelay
  replace hdelay : s.delay = 0 := by omega
  have hcov := hfol.covers
  rw [show w.position + s.delay - 1 = w.position - 1 by omega] at hcov
  -- the next word belongs to a member of the list, or fills a gap before it
  cases hcov with
  | nil => exact absurd rfl hfol.ne_nil
  | next htime hrest =>
    exact tickAgrees_of_member h hm hag hh ht hfol hdelay rfl rfl (by omega) hrest
  | @hold _ g x l _ _ htime hlt hx hrest =>
    have hlink : f.linked polarity x = .set (Bits.unsigned (Bits.xor (f.board.get g).drive.value polarity)) := by
      simp only [linked, hx]
    have hval : (Bits.unsigned (Bits.xor (f.board.get g).drive.value polarity) : Int) =
        Bits.xor (f.board.get g).drive.value polarity := by
      have henc := h.encodable x (by rw [hfol.filled]; simp)
      simp only [Encodable, hx] at henc
      exact Bits.unsigned_xor_eq (lt_trans henc (by decide))
    have hbus : s.bus = Bits.xor (f.board.get g).drive.value polarity := by
      rcases hfol.bus with hbus | ⟨y, _, hy, hpos, -⟩
      · exact hbus g rfl
      · cases hy
        omega
    refine tickAgrees_of_filler h hm hag hh ht hfol hdelay rfl (fun y hy => ?_) hlink ?_ rfl rfl rfl rfl ?_
    · have := hrest.lt_time y (hrest.subset y hy)
      omega
    · exact hval.trans hbus.symm
    · change Covers f.board (w.position + (s.delay : Int)) (some g) _ _
      rwa [show w.position + (s.delay : Int) = w.position - 1 + 1 by omega]
  | @wait _ n _ x l _ _ hn htime hlt hx hrest =>
    have hlink : f.linked polarity x = .wait n.toNat := by
      have henc := h.encodable x (by rw [hfol.filled]; simp)
      simp only [Encodable, hx, Binary64.duration_iff (show 0 ≤ n by omega)] at henc
      simp only [linked, hx]
      rw [Binary64.ofInt_eq, Binary64.toWhole_finite_intCast]
      have : Word.durationLimit ≤ Binary64.significandLimit := by decide
      omega
    refine tickAgrees_of_filler h hm hag hh ht hfol hdelay rfl (fun y hy => ?_) hlink rfl rfl rfl rfl rfl ?_
    · have := hrest.lt_time y (hrest.subset y hy)
      omega
    · change Covers f.board (w.position + (n.toNat : Int)) held _ _
      rwa [show w.position + (n.toNat : Int) = w.position - 1 + 1 + n by omega]

end Step

/-! ## Whole runs -/

section Run

variable {d f : Draft} {polarity : Int} {words : List Word} {m : Machine}

theorem walkStep_of_halted {counts : Nat → Nat → Int} {maxJumps maxTicks : Nat} {w : Walk} (h : w.halted ≠ none) :
    d.walkStep polarity counts maxJumps maxTicks w = w := by
  rw [walkStep, if_pos (Option.isSome_iff_ne_none.2 h)]

theorem Agrees.of_halted {s : Machine.State} {w : Walk} (hbus : s.bus = w.bus) (htick : s.tick = w.tick)
    (hjumps : s.jumps = w.jumps) (hhalted : s.halted = w.halted) (h : s.halted ≠ none) : d.Agrees f polarity s w :=
  ⟨hbus, htick, hjumps, hhalted, fun h' => absurd h' h⟩

/-- The start of both runs. -/
theorem Realizes.agrees_initial (h : d.Realizes f polarity words) (idle : Int) :
    d.Agrees f polarity (.initial idle) (.initial idle) := by
  obtain ⟨l, rest, hlist, -, -⟩ := h.timed.first
  refine ⟨rfl, rfl, rfl, rfl, fun _ => ⟨[], d.list, [], f.list, none, rfl, rfl, rfl, ?_, ?_, by simp, .inl (by simp)⟩⟩
  · exact h.covers
  · rw [hlist]
    simp

/-- One tick of both runs, wherever they stand. A halted walk does not change any more, and neither does the machine. -/
theorem Realizes.step_agrees (h : d.Realizes f polarity words) (hm : m.words = words.toArray) {s : Machine.State}
    {w : Walk} (hag : d.Agrees f polarity s w) : d.TickAgrees f polarity m s w := by
  by_cases hh : s.halted = none
  · by_cases ht : s.tick < m.maxTicks
    · exact tickAgrees h hm hag hh ht
    · have hlimit : m.maxTicks ≤ w.tick := hag.tick ▸ Nat.not_lt.1 ht
      refine ⟨false, { s with halted := some .tickLimit }, ?_, by simp, ?_⟩
      · rw [Machine.step, hh, if_neg (by simp), if_pos (Nat.not_lt.1 ht)]
      · rw [walkStep, if_neg (by simp [← hag.halted, hh]), if_pos hlimit]
        exact .of_halted hag.bus hag.tick hag.jumps rfl (by simp)
  · refine ⟨false, s, ?_, fun _ => hh, ?_⟩
    · exact Machine.step_of_halted hh
    · rwa [walkStep_of_halted (hag.halted ▸ hh)]

theorem Realizes.runFor_agrees (h : d.Realizes f polarity words) (hm : m.words = words.toArray) (n : Nat) :
    ∀ {s : Machine.State} {w : Walk}, d.Agrees f polarity s w →
      ∃ s', m.runFor n s = .ok s' ∧
        d.Agrees f polarity s' ((d.walkStep polarity m.counts m.maxJumps m.maxTicks)^[n] w) := by
  induction n with
  | zero => exact fun hag => ⟨_, rfl, hag⟩
  | succ n ih =>
    intro s w hag
    obtain ⟨go, s', hstep, -, hag'⟩ := h.step_agrees hm hag
    rw [Machine.runFor_succ hstep, Function.iterate_succ_apply]
    exact ih hag'

/-- The words of a timed list, run on the machine, show at every tick what a walk along the list shows. -/
theorem runFor_eq_walk {a : Draft} (hd : d.Timed) (hfill : d.fillGaps = .ok f)
    (haddr : (f.applyPolarity polarity).assignAddresses = .ok a) (henc : a.encode = .ok words)
    (counts : Nat → Nat → Int) (idle : Int) (maxJumps maxTicks n : Nat) :
    let w := (d.walkStep polarity counts maxJumps maxTicks)^[n] (.initial idle)
    ∃ s, (Machine.mk words.toArray counts maxJumps maxTicks).runFor n (.initial idle) = .ok s ∧
      s.bus = w.bus ∧ s.jumps = w.jumps ∧ s.halted = w.halted ∧ s.tick = w.tick := by
  have h := hd.realizes hfill haddr henc
  obtain ⟨s, hrun, hag⟩ := h.runFor_agrees (m := ⟨words.toArray, counts, maxJumps, maxTicks⟩) rfl n
    (h.agrees_initial idle)
  exact ⟨s, hrun, hag.bus, hag.jumps, hag.halted, hag.tick⟩

/-- A SET, a branch back to it, and the END, with gaps between them. -/
def looped : Draft where
  board := ⟨#[⟨0, none, none, [1], .set ⟨5, 15, 0, false⟩⟩, ⟨4, none, none, [], .jump false 2 3 0⟩,
    ⟨6, none, none, [], .stop⟩]⟩
  list := [0, 1, 2]
  past := []

theorem timed_looped : looped.Timed where
  increasing := by decide
  first := ⟨0, [1, 2], rfl, rfl, rfl⟩
  last := ⟨[0, 1], 2, rfl, rfl⟩
  noWait := by
    intro l hl duration
    fin_cases hl <;> exact fun h => by cases h
  jumps := by
    intro l hl always channel threshold g h
    fin_cases hl <;> cases h
    exact ⟨by decide, by decide, by decide, .inl rfl⟩

theorem runFor_looped : looped.Timed ∧ ∃ f a words, looped.fillGaps = .ok f ∧
    (f.applyPolarity 9).assignAddresses = .ok a ∧ a.encode = .ok words ∧
    ∀ (counts : Nat → Nat → Int) (idle : Int) (maxJumps maxTicks n : Nat),
      let w := (looped.walkStep 9 counts maxJumps maxTicks)^[n] (.initial idle)
      ∃ s, (Machine.mk words.toArray counts maxJumps maxTicks).runFor n (.initial idle) = .ok s ∧
        s.bus = w.bus ∧ s.jumps = w.jumps ∧ s.halted = w.halted ∧ s.tick = w.tick := by
  have hok : (do
      let f ← looped.fillGaps
      let a ← (f.applyPolarity 9).assignAddresses
      a.encode).isOk = true := by decide +kernel
  cases hwords : (do
      let f ← looped.fillGaps
      let a ← (f.applyPolarity 9).assignAddresses
      a.encode) with
  | error e =>
    rw [hwords] at hok
    cases hok
  | ok words =>
    obtain ⟨f, hf, h⟩ := Except.bind_eq_ok.1 hwords
    obtain ⟨a, ha, henc⟩ := Except.bind_eq_ok.1 h
    exact ⟨timed_looped, f, a, words, hf, ha, henc, runFor_eq_walk timed_looped hf ha henc⟩

end Run

end Draft

end PulseSequencer
