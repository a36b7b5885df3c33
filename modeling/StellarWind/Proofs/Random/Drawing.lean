import Mathlib.Tactic.ByContra
import StellarWind.Proofs.Except
import StellarWind.Random.Sampler

/-!
# What a sampler does

The packet of a segment is the last one of the sampler or has the next number. Everything
else in a segment is drawn from ranges that are fixed, except for that of the frequency, so
that this is the only step that can fail, and it fails when its range is empty
(`Sampler.Steady`). Main statement: `run_sample` says all of this about one segment, whatever
the source and the cell are.
-/

namespace StellarWind

/-- The packet that a segment belongs to. -/
def Segment.carrier (s : Segment) : Packet := ⟨s.id, s.origin, s.scatters⟩

/-! ## Draws from a source

A draw reads words from the source, and it fails only if its range is empty. No draw asks a word to
have a property, so that the source can be anything.
-/

namespace Draw

variable {γ α β : Type}

/-- The draw has a result, whatever the source. -/
def Gives (d : Draw γ α) : Prop := ∀ g, ∃ a g', d.run.run g = (.ok a, g')

theorem gives_pure (a : α) : (pure a : Draw γ α).Gives := fun g => ⟨a, g, rfl⟩

theorem Gives.bind {d : Draw γ α} {f : α → Draw γ β} (hd : d.Gives) (hf : ∀ a, (f a).Gives) :
    (d >>= f).Gives := by
  intro g
  obtain ⟨a, mid, ha⟩ := hd g
  obtain ⟨b, g', hb⟩ := hf a mid
  exact ⟨b, g', (run_bind_ok ha).trans hb⟩

variable [RandomSource γ]

theorem gives_word : (word : Draw γ UInt32).Gives := fun _ => ⟨_, _, rfl⟩

theorem gives_wide : (wide : Draw γ UInt64).Gives :=
  gives_word.bind fun _ => gives_word.bind fun _ => gives_pure _

theorem gives_uniform {closed : Bool} {a b : Float} (h : isRange closed a b = true) :
    (uniform closed a b : Draw γ Float).Gives := by
  rw [uniform, if_pos h]
  exact gives_wide.bind fun _ => gives_pure _

theorem gives_below (n : Nat) : (below n : Draw γ Nat).Gives := by
  refine gives_word.bind fun w => ?_
  dsimp only
  split
  · exact gives_word.bind fun _ => gives_pure _
  · exact gives_pure _

theorem gives_chance (threshold : UInt64) : (chance threshold : Draw γ Bool).Gives :=
  gives_wide.bind fun _ => gives_pure _

end Draw

namespace Sampler

variable {γ α β : Type}

theorem run_bind (m : Sampling γ α) (f : α → Sampling γ β) (s : Sampler γ) :
    run (m >>= f) s = match run m s with
      | (.ok a, mid) => run (f a) mid
      | (.error fault, mid) => (.error fault, mid) := by
  rcases h : run m s with ⟨fault | a, mid⟩
  · exact run_bind_error h
  · exact run_bind_ok h

theorem run_bind_eq_ok_iff {m : Sampling γ α} {f : α → Sampling γ β} {s s' : Sampler γ} {b : β} :
    run (m >>= f) s = (.ok b, s') ↔
      ∃ a mid, run m s = (.ok a, mid) ∧ run (f a) mid = (.ok b, s') := by
  rw [run_bind]
  rcases run m s with ⟨fault | a, mid⟩
  · simp
  · constructor
    · exact fun h => ⟨a, mid, rfl, h⟩
    · rintro ⟨a', mid', h, h'⟩
      cases h
      exact h'

variable [Elementary]

/-- The frequencies of the sampler are one, or a range that can be drawn from. -/
def Steady (s : Sampler γ) : Prop :=
  s.high ≤ s.low ∨ Draw.isRange false (Elementary.log s.low) (Elementary.log s.high) = true

/-! ## Steps that only draw

A step that only draws changes nothing in the sampler but its source. Then the frequencies stay
what they are, and a sequence of such steps fails exactly when one of its steps does.
-/

/-- A step that only draws went from one sampler to another. It has a result with a property,
unless a frequency was asked for and there is no range to draw it from. -/
structure Drawn (tuned : Bool) (Q : α → Prop) (s : Sampler γ) (r : Except Fault α)
    (s' : Sampler γ) : Prop where
  source : ∃ g, s' = { s with source := g }
  ok : (tuned = true → s.Steady) → ∃ a, r = .ok a ∧ Q a
  fault : tuned = true → ¬ s.Steady → r = .error .emptyRange

/-- What a step that only draws does to every sampler. -/
def Draws (m : Sampling γ α) (tuned : Bool) (Q : α → Prop) : Prop :=
  ∀ s, Drawn tuned Q s (run m s).1 (run m s).2

theorem Drawn.of_ok {tuned : Bool} {Q : α → Prop} {s s' : Sampler γ} {a : α}
    (h : Drawn tuned Q s (.ok a) s') : Q a ∧ (tuned = true → s.Steady) := by
  have hsteady : tuned = true → s.Steady := fun ht => by
    by_contra hs
    cases h.fault ht hs
  obtain ⟨b, hb, hQ⟩ := h.ok hsteady
  cases hb
  exact ⟨hQ, hsteady⟩

theorem Draws.bind {m : Sampling γ α} {f : α → Sampling γ β} {p q : Bool} {P : α → Prop}
    {Q : β → Prop} (hm : Draws m p P) (hf : ∀ a, P a → Draws (f a) q Q) :
    Draws (m >>= f) (p || q) Q := by
  intro s
  have hfirst := hm s
  rw [run_bind]
  rcases hrun : run m s with ⟨fault | a, mid⟩ <;> rw [hrun] at hfirst
  · -- The first step has failed, so that it has asked for a frequency in vain.
    have hnone : ¬ (p = true → s.Steady) := fun h => by
      obtain ⟨a, ha, -⟩ := hfirst.ok h
      cases ha
    refine ⟨hfirst.source, fun h => absurd (fun hp => h (by rw [hp, Bool.true_or])) hnone,
      fun _ hs => ?_⟩
    have hp : p = true := by
      by_contra hp
      exact hnone fun h => absurd h hp
    exact congrArg Except.error (Except.error.inj (hfirst.fault hp hs))
  · obtain ⟨hP, hp⟩ := hfirst.of_ok
    obtain ⟨g, rfl⟩ := hfirst.source
    have hrest := hf a hP { s with source := g }
    refine ⟨hrest.source, fun h => hrest.ok fun hq => h (by rw [hq, Bool.or_true]), fun h hs => ?_⟩
    refine hrest.fault ?_ hs
    rcases Bool.or_eq_true_iff.mp h with h | h
    · exact absurd (hp h) hs
    · exact h

theorem draws_pure {Q : α → Prop} {a : α} (h : Q a) : Draws (pure a : Sampling γ α) false Q :=
  fun s => ⟨⟨s.source, rfl⟩, fun _ => ⟨a, rfl, h⟩, nofun⟩

theorem draws_draw {d : Draw γ α} (h : d.Gives) : Draws (draw d) false fun _ => True := by
  intro s
  obtain ⟨a, g, ha⟩ := h s.source
  have hrun : run (draw d) s = (.ok a, { s with source := g }) := by
    show ((d.run.run s.source).1, { s with source := (d.run.run s.source).2 }) = _
    rw [ha]
  rw [hrun]
  exact ⟨⟨g, rfl⟩, fun _ => ⟨a, rfl, trivial⟩, nofun⟩

variable [RandomSource γ]

theorem draws_uniform {closed : Bool} {a b : Float} (h : Draw.isRange closed a b = true) :
    Draws (draw (Draw.uniform closed a b) : Sampling γ Float) false fun _ => True :=
  draws_draw (Draw.gives_uniform h)

theorem draws_direction : Draws (direction : Sampling γ (Vec3 Float)) false fun _ => True :=
  (draws_uniform (by decide +kernel)).bind fun _ _ =>
    (draws_uniform (by decide +kernel)).bind fun _ _ => draws_pure trivial

theorem draws_frequency : Draws (frequency : Sampling γ Float) true fun _ => True := by
  intro s
  have hfrequency : run (frequency : Sampling γ Float) s =
      run (if s.high ≤ s.low then pure s.low
        else do
          let exponent ← draw (Draw.uniform false (Elementary.log s.low) (Elementary.log s.high))
          return Elementary.exp exponent) s := rfl
  rw [hfrequency]
  -- One frequency needs no draw. Of two, the logarithms may still be equal or not finite.
  by_cases hone : s.high ≤ s.low
  · rw [if_pos hone]
    exact ⟨⟨s.source, rfl⟩, fun _ => ⟨_, rfl, trivial⟩, fun _ h => absurd (.inl hone) h⟩
  · rw [if_neg hone]
    by_cases hrange : Draw.isRange false (Elementary.log s.low) (Elementary.log s.high) = true
    · have hdrawn := ((draws_uniform hrange).bind (Q := fun _ => True) fun exponent _ =>
        draws_pure (a := Elementary.exp exponent) trivial) s
      exact ⟨hdrawn.source, fun _ => hdrawn.ok nofun, fun _ h => absurd (.inr hrange) h⟩
    · have hnone :
          run (draw (Draw.uniform false (Elementary.log s.low) (Elementary.log s.high))) s =
            (.error .emptyRange, s) := by
        rw [Draw.uniform, if_neg hrange]
        rfl
      rw [run_bind, hnone]
      exact ⟨⟨s.source, rfl⟩, fun h => absurd (h rfl) (not_or.mpr ⟨hone, hrange⟩), fun _ _ => rfl⟩

/-! ## The packet of a segment

A packet is chosen by a draw that says whether the last one goes on. It takes a number if it is a
new one, and in both cases the sampler remembers it.
-/

omit [Elementary] [RandomSource γ] in
/-- A sampler has chosen a packet for a cell: the last one, or one with the next number. -/
structure Took (cell : Nat) (s : Sampler γ) (p : Packet) (s' : Sampler γ) : Prop where
  low : s'.low = s.low
  high : s'.high = s.high
  last : s'.last = some p
  next : s.last = some p ∧ s'.next = s.next ∨ p.id = ⟨cell, s.next⟩ ∧ s'.next = s.next + 1

omit [RandomSource γ] in
theorem Took.steady_iff {cell : Nat} {s s' : Sampler γ} {p : Packet} (h : Took cell s p s') :
    s'.Steady ↔ s.Steady := by
  rw [Steady, Steady, h.low, h.high]

omit [Elementary] [RandomSource γ] in
theorem Took.next_le {cell : Nat} {s s' : Sampler γ} {p : Packet} (h : Took cell s p s') :
    s'.next ≤ s.next + 1 := by
  obtain ⟨-, h⟩ | ⟨-, h⟩ := h.next <;> omega

omit [Elementary] [RandomSource γ] in
/-- What is drawn behind the packet has no part in it. -/
theorem Took.draw {cell : Nat} {s s' : Sampler γ} {p : Packet} (h : Took cell s p s') (g : γ) :
    Took cell s p { s' with source := g } :=
  ⟨h.low, h.high, h.last, h.next⟩

theorem run_newPacket (cell : Nat) (s : Sampler γ) :
    ∃ p g, run (newPacket cell) s = (.ok p, { s with source := g, next := s.next + 1 }) ∧
      p.id = ⟨cell, s.next⟩ := by
  -- The number is taken before anything is drawn, and the draws leave it alone.
  have hdraws : Draws (do
      let n ← draw (Draw.below Origin.all.length)
      let scatters ← draw (Draw.below 4)
      return (⟨⟨cell, s.next⟩, Origin.all.getD n .star, scatters⟩ : Packet) : Sampling γ Packet)
      false (·.id = ⟨cell, s.next⟩) :=
    (draws_draw (Draw.gives_below _)).bind fun _ _ =>
      (draws_draw (Draw.gives_below _)).bind fun _ _ => draws_pure rfl
  have hdrawn := hdraws { s with next := s.next + 1 }
  obtain ⟨p, hp, hid⟩ := hdrawn.ok nofun
  obtain ⟨g, hg⟩ := hdrawn.source
  exact ⟨p, g, Prod.ext hp hg, hid⟩

/-- A packet can always be chosen. -/
theorem run_packet (cell : Nat) (s : Sampler γ) :
    ∃ p s', run (packet cell) s = (.ok p, s') ∧ Took cell s p s' := by
  have hget : run (get : Sampling γ (Sampler γ)) s = (.ok s, s) := rfl
  -- However the packet was chosen, it is remembered and given back.
  have hkeep {m : Sampling γ Packet} {mid mid' : Sampler γ} {p : Packet}
      (h : run m mid = (.ok p, mid')) :
      run (do
        let chosen ← m
        modify fun s => { s with last := some chosen }
        return chosen) mid = (.ok p, { mid' with last := some p }) := by
    rw [run_bind, h]
    rfl
  rw [packet, run_bind, hget]
  dsimp only
  cases hlast : s.last with
  | none =>
      obtain ⟨p, g, hnew, hid⟩ := run_newPacket cell s
      exact ⟨p, _, hkeep hnew, rfl, rfl, rfl, .inr ⟨hid, rfl⟩⟩
  | some previous =>
      have hdrawn := draws_draw (Draw.gives_chance reentry) s
      obtain ⟨again, hagain, -⟩ := hdrawn.ok nofun
      obtain ⟨g, hg⟩ := hdrawn.source
      have hchance : run (draw (Draw.chance reentry)) s = (.ok again, { s with source := g }) :=
        Prod.ext hagain hg
      dsimp only
      rw [run_bind, hchance]
      cases again with
      | true =>
          exact ⟨previous, _, hkeep (m := pure previous) rfl, rfl, rfl, rfl, .inl ⟨hlast, rfl⟩⟩
      | false =>
          obtain ⟨p, g', hnew, hid⟩ := run_newPacket cell { s with source := g }
          exact ⟨p, _, hkeep hnew, rfl, rfl, rfl, .inr ⟨hid, rfl⟩⟩

/-! ## One segment

The packet comes first, and then eight draws, of which the fourth is the frequency. They all leave
the packet alone, so that the sampler has moved on by one packet at most even when the frequency
fails.
-/

/-- A segment has the packet that was chosen for its cell. There is one exactly when a
frequency can be drawn, and a packet is chosen also when there is none. -/
theorem run_sample (c : Cell) (s : Sampler γ) :
    ∃ p r s', run (sample c) s = (r, s') ∧ Took c.tallyIndex s p s' ∧
      (s.Steady → ∃ seg, r = .ok seg ∧ seg.carrier = p) ∧
      (¬ s.Steady → r = .error .emptyRange) := by
  obtain ⟨p, mid, hpacket, htook⟩ := run_packet c.tallyIndex s
  have hpart : Draws (draw (Draw.uniform true (-0.25) 0.25) : Sampling γ Float) false
      fun _ => True := draws_uniform (by decide +kernel)
  -- Once the packet is chosen the draws use up the source and change nothing else.
  have hdrawn {m : Sampling γ Segment} (hm : Draws m true (·.carrier = p)) :
      ∃ r s', run m mid = (r, s') ∧ Took c.tallyIndex s p s' ∧
        (s.Steady → ∃ seg, r = .ok seg ∧ seg.carrier = p) ∧
        (¬ s.Steady → r = .error .emptyRange) := by
    obtain ⟨⟨g, hg⟩, hok, hfault⟩ := hm mid
    rw [htook.steady_iff] at hok hfault
    exact ⟨_, _, rfl, hg ▸ htook.draw g, fun h => hok fun _ => h, hfault rfl⟩
  refine ⟨p, ?_⟩
  rw [sample, run_bind, hpacket]
  apply hdrawn
  -- Of these draws only the one of the frequency can fail.
  refine hpart.bind (q := true) fun x _ => hpart.bind (q := true) fun y _ => ?_
  refine hpart.bind (q := true) fun z _ => draws_frequency.bind (q := false) fun freq _ => ?_
  refine (draws_uniform (by decide +kernel)).bind (q := false) fun weight _ => ?_
  refine (draws_uniform (by decide +kernel)).bind (q := false) fun part _ => ?_
  exact draws_direction.bind fun direction _ => draws_pure rfl

/-- The packet of a segment is remembered. -/
theorem took_of_sample {c : Cell} {s s' : Sampler γ} {seg : Segment}
    (h : run (sample c) s = (.ok seg, s')) : Took c.tallyIndex s seg.carrier s' := by
  obtain ⟨p, r, t, hrun, htook, hok, hfault⟩ := run_sample c s
  obtain ⟨rfl, rfl⟩ := Prod.mk.inj (h.symm.trans hrun)
  by_cases hs : s.Steady
  · obtain ⟨seg', heq, rfl⟩ := hok hs
    cases heq
    exact htook
  · cases hfault hs

end Sampler

end StellarWind
