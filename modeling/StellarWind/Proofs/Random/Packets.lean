import Mathlib.Data.List.Chain
import StellarWind.Proofs.Random.Drawing
import StellarWind.Proofs.Tally.Counting

/-!
# Sampled packets are counted once

A tally counts a packet whenever the one before was another, which is right only if no
packet comes back. A sampler remembers its last packet and either continues it or takes
the next number, so that the numbers never fall along a run (`isChain_sampleAll`). This
order is inherited by every part of the run, and so every tally that gets some of the
segments counts each packet once (`Tally.recordAll_orderly`).
-/

namespace StellarWind

/-- A packet may come after another: it is the same, or it has the next number. -/
def Packet.Follows (p q : Packet) : Prop := q = p ∨ q.id.packet = p.id.packet + 1

namespace Sampler

variable {γ : Type} [RandomSource γ] [Elementary]

/-! ## Whole runs

The sampler remembers the packet of the segment before, and its next number is one above it. This
is what the induction over the cells carries along.
-/

/-- Sample a segment in each of the given cells, in order. -/
def sampleAll (cells : List Cell) : Sampling γ (List Segment) := cells.mapM sample

theorem run_sampleAll_cons {c : Cell} {cells : List Cell} {s s' : Sampler γ} {ss : List Segment}
    (h : run (sampleAll (c :: cells)) s = (.ok ss, s')) :
    ∃ seg mid rest, ss = seg :: rest ∧ run (sample c) s = (.ok seg, mid) ∧
      run (sampleAll cells) mid = (.ok rest, s') := by
  rw [sampleAll, List.mapM_cons] at h
  obtain ⟨seg, mid, hfirst, h⟩ := run_bind_eq_ok_iff.mp h
  obtain ⟨rest, mid', hrest, h⟩ := run_bind_eq_ok_iff.mp h
  cases h
  exact ⟨seg, mid, rest, rfl, hfirst, hrest⟩

theorem isChain_sampleAll {cells : List Cell} {s s' : Sampler γ} {p : Packet} {ss : List Segment}
    (hlast : s.last = some p) (hnext : s.next = p.id.packet + 1)
    (h : run (sampleAll cells) s = (.ok ss, s')) :
    (p :: ss.map (·.carrier)).IsChain Packet.Follows := by
  -- The packet in front is the one that the sampler remembers.
  induction cells generalizing s p ss with
  | nil =>
      cases h
      exact .singleton p
  | cons c cells ih =>
      obtain ⟨seg, mid, rest, rfl, hfirst, hrest⟩ := run_sampleAll_cons h
      obtain ⟨-, -, hmid, hstep⟩ := took_of_sample hfirst
      rw [List.map_cons, List.isChain_cons_cons]
      rcases hstep with ⟨hagain, hsame⟩ | ⟨hid, hmore⟩
      · obtain rfl : p = seg.carrier := Option.some.inj (hlast.symm.trans hagain)
        exact ⟨.inl rfl, ih hmid (hsame.trans hnext) hrest⟩
      · have hnumber : seg.carrier.id.packet = s.next := congrArg PacketId.packet hid
        refine ⟨.inr (hnumber.trans hnext), ih hmid ?_ hrest⟩
        rw [hmore, hnumber]

theorem length_sampleAll {cells : List Cell} {s s' : Sampler γ} {ss : List Segment}
    (h : run (sampleAll cells) s = (.ok ss, s')) : ss.length = cells.length := by
  induction cells generalizing s ss with
  | nil =>
      cases h
      rfl
  | cons c cells ih =>
      obtain ⟨seg, mid, rest, rfl, -, hrest⟩ := run_sampleAll_cons h
      rw [List.length_cons, List.length_cons, ih hrest]

/-- The first packet of a new sampler has number 0, and every other one follows. -/
theorem run_sampleAll_ofSource {source : γ} {low high : Float} {cells : List Cell}
    {s' : Sampler γ} {ss : List Segment}
    (h : run (sampleAll cells) (ofSource source low high) = (.ok ss, s')) :
    (∀ seg ∈ ss.head?, seg.id.packet = 0) ∧ (ss.map (·.carrier)).IsChain Packet.Follows := by
  cases cells with
  | nil =>
      cases h
      exact ⟨by simp, .nil⟩
  | cons c cells =>
      obtain ⟨seg, mid, rest, rfl, hfirst, hrest⟩ := run_sampleAll_cons h
      obtain ⟨-, -, hlast, ⟨hagain, -⟩ | ⟨hid, hnext⟩⟩ := took_of_sample hfirst
      · cases hagain
      · have hnumber : seg.id.packet = 0 := congrArg PacketId.packet hid
        refine ⟨by simpa using hnumber, isChain_sampleAll hlast ?_ hrest⟩
        rw [hnext]
        show 0 + 1 = seg.id.packet + 1
        rw [hnumber]

end Sampler

/-! ## Segments in the order of their packets

That each packet follows the one before is lost when segments are left out. What a part of a run
inherits is that the numbers do not fall, and that equal numbers mean equal packets. This is enough
for a packet not to come back.
-/

/-- A later segment carries the same packet or one with a higher number. -/
def Orderly (ss : List Segment) : Prop :=
  ss.Pairwise fun a b => a.carrier = b.carrier ∨ a.id.packet < b.id.packet

theorem orderly_of_isChain {ss : List Segment}
    (h : (ss.map (·.carrier)).IsChain Packet.Follows) : Orderly ss := by
  have htrans : IsTrans Packet fun p q => p = q ∨ p.id.packet < q.id.packet := by
    refine ⟨fun p q r hpq hqr => ?_⟩
    rcases hpq with rfl | hpq
    · exact hqr
    · rcases hqr with rfl | hqr
      · exact .inr hpq
      · exact .inr (Nat.lt_trans hpq hqr)
  have hchain : (ss.map (·.carrier)).IsChain fun p q => p = q ∨ p.id.packet < q.id.packet := by
    refine h.imp fun p q hpq => ?_
    rcases hpq with rfl | hpq
    · exact .inl rfl
    · exact .inr (by omega)
  exact List.pairwise_map.mp (List.isChain_iff_pairwise.mp hchain)

theorem mem_of_mem_openings {last : Option PacketId} {s : Segment} {ss : List Segment}
    (h : s ∈ openings last ss) : s ∈ ss := by
  obtain ⟨p, hp, rfl⟩ := List.mem_map.mp h
  exact (List.of_mem_zip (List.mem_of_mem_filter hp)).1

namespace Orderly

variable {ss : List Segment}

theorem carrier_eq (h : Orderly ss) {a b : Segment} (ha : a ∈ ss) (hb : b ∈ ss)
    (hab : a.id.packet = b.id.packet) : a.carrier = b.carrier := by
  have hsymm : Std.Symm fun a b : Segment => a.id.packet = b.id.packet → a.carrier = b.carrier :=
    ⟨fun _ _ h hab => (h hab.symm).symm⟩
  have hpairs : ss.Pairwise fun a b => a.id.packet = b.id.packet → a.carrier = b.carrier := by
    refine h.imp fun hprecedes hnumber => ?_
    rcases hprecedes with hsame | hlower
    · exact hsame
    · omega
  exact hpairs.forall_of_forall (fun _ _ _ => rfl) ha hb hab

theorem contiguous (h : Orderly ss) : Contiguous (ss.map (·.id)) := by
  have hids : (ss.map (·.id)).Pairwise fun x y => x = y ∨ x.packet < y.packet := by
    refine List.pairwise_map.mpr (h.imp fun hab => ?_)
    exact hab.imp_left (congrArg Packet.id)
  intro x y hsub
  have hxyx := hids.sublist hsub
  simp only [List.pairwise_cons, List.mem_cons, List.not_mem_nil, or_false] at hxyx
  rcases hxyx.1 y (.inl rfl) with hxy | hxy
  · exact hxy
  · rcases hxyx.2.1 x rfl with hyx | hyx
    · exact hyx.symm
    · omega

theorem length_openings (h : Orderly ss) :
    (openings none ss).length = (ss.map (·.id)).toFinset.card :=
  (length_openings_eq_card_iff ss).mpr h.contiguous

theorem countP_openings (h : Orderly ss) (o : Origin) :
    (openings none ss).countP (·.origin = o) =
      ((ss.filter (·.origin = o)).map (·.id)).toFinset.card := by
  have hnodup : (((openings none ss).filter (·.origin = o)).map (·.id)).Nodup :=
    ((nodup_openings ss).mpr h.contiguous).sublist (List.filter_sublist.map _)
  have hsame : (((openings none ss).filter (·.origin = o)).map (·.id)).toFinset =
      ((ss.filter (·.origin = o)).map (·.id)).toFinset := by
    ext x
    simp only [List.mem_toFinset, List.mem_map, List.mem_filter, decide_eq_true_eq]
    constructor
    · rintro ⟨a, ⟨ha, horigin⟩, hx⟩
      exact ⟨a, ⟨mem_of_mem_openings ha, horigin⟩, hx⟩
    · rintro ⟨a, ⟨ha, horigin⟩, rfl⟩
      -- The packet of `a` has an opening `b`, and all segments of a packet have one origin.
      have hopened : a.id ∈ ((openings none ss).map (·.id)).toFinset := by
        rw [toFinset_openings, List.mem_toFinset]
        exact List.mem_map_of_mem ha
      obtain ⟨b, hb, hid⟩ := List.mem_map.mp (List.mem_toFinset.mp hopened)
      have hcarrier := h.carrier_eq (mem_of_mem_openings hb) ha (congrArg PacketId.packet hid)
      exact ⟨b, ⟨hb, (congrArg Packet.origin hcarrier).trans horigin⟩, hid⟩
  rw [List.countP_eq_length_filter, ← hsame, List.toFinset_card_of_nodup hnodup, List.length_map]

end Orderly

/-! ## Counting sampled packets

A tally counts openings, that is, segments with another packet than the one before. Since no packet
comes back there are as many openings as packets.
-/

theorem Tally.recordAll_orderly [Elementary] [Addition] {index cell : Nat} {table : BandTable}
    (h : table.count ≤ bandLimit) {steps : List (CoordSystem × Segment)}
    (hlength : steps.length < Count.range64) (hsteps : Orderly (steps.map Prod.snd)) :
    ∃ effects t, ({ blank index cell with bands := table } : Tally).recordAll steps =
        (.ok effects, t) ∧
      t.origins.total = ((steps.map Prod.snd).map (·.id)).toFinset.card ∧
      (∀ o, t.origins.get o =
        (((steps.map Prod.snd).filter (·.origin = o)).map (·.id)).toFinset.card) ∧
      t.ionizingPackets = ((ionizers (steps.map Prod.snd)).map (·.id)).toFinset.card := by
  have hrange := (inRange_routed_blank_iff index cell h steps).mpr hlength
  have hrun := recordAll_ok ((below_blank index cell h).mono (by decide)) hrange
  obtain ⟨htotal, horigin, hionizing⟩ := counts_routed_blank index cell table steps
  have hionizers : Orderly (ionizers (steps.map Prod.snd)) := hsteps.sublist List.filter_sublist
  refine ⟨_, _, hrun, ?_, fun o => ?_, ?_⟩
  · rw [htotal, hsteps.length_openings]
  · rw [horigin o, hsteps.countP_openings o]
  · rw [hionizing, hionizers.length_openings]

/-- The packets of a new sampler are numbered from 0 and never come back, whatever the
source and the cells are. So every tally that gets some of the segments, in order, counts
each packet once, if there are not too many to be counted. -/
theorem Sampler.sampleAll_counted_once {γ : Type} [RandomSource γ] [Elementary] [Addition]
    {source : γ} {low high : Float} {cells : List Cell} {ss : List Segment} {s' : Sampler γ}
    (h : run (sampleAll cells) (ofSource source low high) = (.ok ss, s')) :
    ss.length = cells.length ∧ (∀ first ∈ ss.head?, first.id.packet = 0) ∧
      ss.IsChain (fun a b => b.id.packet = a.id.packet ∨ b.id.packet = a.id.packet + 1) ∧
      (∀ a ∈ ss, ∀ b ∈ ss, a.id.packet = b.id.packet →
        a.id = b.id ∧ a.origin = b.origin ∧ a.scatters = b.scatters) ∧
      (∀ x y, [x, y, x].Sublist (ss.map (·.id)) → x = y) ∧
      ∀ (index cell : Nat) (table : BandTable) (steps : List (CoordSystem × Segment)),
        table.count ≤ bandLimit → cells.length < Count.range64 → (steps.map Prod.snd).Sublist ss →
        ∃ effects t, ({ Tally.blank index cell with bands := table } : Tally).recordAll steps =
            (.ok effects, t) ∧
          t.origins.total = ((steps.map Prod.snd).map (·.id)).toFinset.card ∧
          (∀ o, t.origins.get o =
            (((steps.map Prod.snd).filter (·.origin = o)).map (·.id)).toFinset.card) ∧
          t.ionizingPackets =
            ((ionizers (steps.map Prod.snd)).map (·.id)).toFinset.card := by
  obtain ⟨hfirst, hchain⟩ := run_sampleAll_ofSource h
  have horderly := orderly_of_isChain hchain
  refine ⟨length_sampleAll h, hfirst, ?_, ?_, horderly.contiguous, ?_⟩
  · refine ((List.isChain_map _).mp hchain).imp fun a b hab => ?_
    exact hab.imp_left fun hsame => congrArg (·.id.packet) hsame
  · intro a ha b hb hab
    have hcarrier := horderly.carrier_eq ha hb hab
    exact ⟨congrArg Packet.id hcarrier, congrArg Packet.origin hcarrier,
      congrArg Packet.scatters hcarrier⟩
  · intro index cell table steps htable hcalls hsub
    have hlength := hsub.length_le
    rw [List.length_map, length_sampleAll h] at hlength
    exact Tally.recordAll_orderly htable (hlength.trans_lt hcalls) (horderly.sublist hsub)

/-- A source of given words, with zeros behind them. -/
structure Script where
  words : List UInt32

instance : RandomSource Script where
  next s := match s.words with
    | [] => (0, s)
    | w :: rest => (w, ⟨rest⟩)

/-- A zero continues a packet. The first word that is not zero decides on the third segment. -/
def thirdIsNew : Script := ⟨List.replicate 33 0 ++ [0xffffffff]⟩

/-- The first packet is carried into another cell, where a second one begins. -/
def visited : List Cell := [.blank 0 3 3, .blank 0 5 5, .blank 0 5 5]

theorem Sampler.sampleAll_counted_once_reentry :
    ∃ ss s', run (sampleAll visited) (ofSource thirdIsNew 5e15 5e15) = (.ok ss, s') ∧
      ss.map (·.id) = [⟨3, 0⟩, ⟨3, 0⟩, ⟨5, 1⟩] ∧
      ∃ effects t, (Tally.blank 5 5).recordAll ((ss.drop 1).map fun s => (.spherical, s)) =
        (.ok effects, t) ∧ t.origins.total = 2 := by
  have hids : (run (sampleAll visited) (ofSource thirdIsNew 5e15 5e15)).1.toOption.map
      (·.map (·.id)) = some [⟨3, 0⟩, ⟨3, 0⟩, ⟨5, 1⟩] := by decide +kernel
  rcases hrun : run (sampleAll visited) (ofSource thirdIsNew 5e15 5e15) with ⟨fault | ss, s'⟩
  · rw [hrun] at hids
    cases hids
  · rw [hrun] at hids
    have hss : ss.map (·.id) = [⟨3, 0⟩, ⟨3, 0⟩, ⟨5, 1⟩] := Option.some.inj hids
    obtain ⟨-, -, -, -, -, hcounts⟩ := sampleAll_counted_once hrun
    have hsnd : ((ss.drop 1).map fun s => (CoordSystem.spherical, s)).map Prod.snd = ss.drop 1 := by
      simp
    obtain ⟨effects, t, hrecord, htotal, -⟩ := hcounts 5 5 .empty _ (by decide) (by decide)
      (hsnd ▸ List.drop_sublist 1 ss)
    refine ⟨ss, s', rfl, hss, effects, t, hrecord, ?_⟩
    rw [htotal, hsnd, List.map_drop, hss]
    decide

end StellarWind
