import StellarWind.Proofs.Exchange.Lockstep

/-!
# Registrations over whole runs

Types are registered, released and sized in any order, with exchanges in between. What a
registry holds after such a run can be read off the log of calls and answers (`Explains`): a
handle is never given out twice, and it stands for its layout from its registration to its
first release. An exchange that returns leaves no registration behind, on whichever way it
returns (`KeepsTypes.registry_synchronize`).
-/

namespace StellarWind

/-! ## One registry

Handles are given out in increasing order, so that the next handle stands for nothing yet.
-/

namespace Registry

variable {r : Registry}

/-- Every live handle has been given out. -/
def Numbered (r : Registry) : Prop := ∀ p ∈ r.types, p.1 < r.next

theorem layout_eq_ok_iff {handle : Nat} {c : Composite} :
    r.layout handle = .ok c ↔ r.types.lookup handle = some c := by
  unfold layout
  cases r.types.lookup handle <;> simp

theorem layout_of_lookup_none {handle : Nat} (h : r.types.lookup handle = none) :
    r.layout handle = .error (.unknownType handle) := by
  rw [layout, h]

theorem lookup_filter_ne (types : List (Nat × Composite)) (handle other : Nat) :
    (types.filter (·.1 != handle)).lookup other =
      if other = handle then none else types.lookup other := by
  induction types with
  | nil => simp
  | cons p rest ih =>
      rw [List.filter_cons]
      by_cases hp : p.1 = handle <;> by_cases ho : other = handle <;> grind

theorem Numbered.lookup_next (h : r.Numbered) : r.types.lookup r.next = none := by
  rw [List.lookup_eq_none_iff]
  intro p hp
  simpa using Nat.ne_of_gt (h p hp)

theorem Numbered.filter_next (h : r.Numbered) : r.types.filter (·.1 != r.next) = r.types := by
  rw [List.filter_eq_self]
  intro p hp
  simpa using Nat.ne_of_lt (h p hp)

end Registry

namespace Seat

theorem register_of_check {c : Composite} (h : c.check = .ok ()) (s : Seat) :
    s.register c = (.ok s.registry.next,
      { s with registry := ⟨s.registry.next + 1, (s.registry.next, c) :: s.registry.types⟩ }) := by
  rw [register, Registry.register, h]
  rfl

theorem register_of_refused {c : Composite} {a : Abort ExchangeError} (h : c.check = .error a)
    (s : Seat) : s.register c = (.error a, s) := by
  rw [register, Registry.register, h]
  rfl

theorem free_of_live {handle : Nat} {c : Composite} {s : Seat}
    (h : s.registry.types.lookup handle = some c) :
    s.free handle = (.ok (), { s with registry :=
      { s.registry with types := s.registry.types.filter (·.1 != handle) } }) := by
  rw [free, Registry.free, Registry.layout_eq_ok_iff.mpr h]
  rfl

theorem free_of_unknown {handle : Nat} {s : Seat} (h : s.registry.types.lookup handle = none) :
    s.free handle = (.error (.unknownType handle), s) := by
  rw [free, Registry.free, Registry.layout_of_lookup_none h]
  rfl

end Seat

namespace Exchange

/-! ## One exchange

Only registering, releasing and broadcasting can touch the types of a channel. So an exchange is
followed by its seat alone: it takes a handle when it is opened, keeps it through the rounds, and
gives it back when it is closed, also when a worker could not be made ready in between.
-/

section

variable {σ : Type} [Channel σ] {seat : σ → Seat} {e e' : σ} {s : Seat}

/-- A channel that keeps its types in a seat. It may refuse a registration of its own accord,
and then nothing changes. It may give any sizes, and broadcasts may do what they like otherwise. -/
structure KeepsTypes (seat : σ → Seat) : Prop where
  register : ∀ c e,
    ((Endpoint.register c e).1 = ((seat e).register c).1 ∧
      seat (Endpoint.register c e).2 = ((seat e).register c).2) ∨
    ((∃ a, (Endpoint.register c e).1 = .error a) ∧ seat (Endpoint.register c e).2 = seat e)
  free : ∀ handle e, (Endpoint.free handle e).1 = ((seat e).free handle).1 ∧
    seat (Endpoint.free handle e).2 = ((seat e).free handle).2
  broadcast : ∀ bytes root e, seat (Channel.broadcast bytes root e).2 = seat e

theorem keeps_solo : KeepsTypes Solo.seat where
  register _ _ := .inl ⟨rfl, rfl⟩
  free _ _ := ⟨rfl, rfl⟩
  broadcast _ _ _ := rfl

theorem keeps_line {τ : Type} : KeepsTypes (fun l : Line τ => l.seat) where
  register _ _ := .inl ⟨rfl, rfl⟩
  free _ _ := ⟨rfl, rfl⟩
  broadcast _ _ _ := rfl

namespace KeepsTypes

theorem registerAll_layouts (h : KeepsTypes seat) (e : σ) :
    (∃ a e', registerAll Cell.schema.layouts e = (.error a, e') ∧ seat e' = seat e) ∨
      ∃ e', registerAll Cell.schema.layouts e = (.ok [(seat e).registry.next], e') ∧
        seat e' = withCone (seat e) := by
  have hlayouts : Cell.schema.layouts = [Cone.layout] := rfl
  have hcone : (seat e).register Cone.layout =
      (.ok (seat e).registry.next, withCone (seat e)) := rfl
  rw [hlayouts, registerAll]
  have hregister := h.register Cone.layout e
  rw [hcone] at hregister
  rcases hcall : Endpoint.register Cone.layout e with ⟨a | handle, e'⟩ <;> rw [hcall] at hregister
  · obtain ⟨habsurd, -⟩ | ⟨-, hseat⟩ := hregister
    · cases habsurd
    · exact .inl ⟨a, e', rfl, hseat⟩
  · obtain ⟨hhandle, hseat⟩ | ⟨⟨a, habsurd⟩, -⟩ := hregister
    · cases hhandle
      exact .inr ⟨e', rfl, hseat⟩
    · cases habsurd

/-- Unless it ends in a fault, an opening leaves the types as they were or registers that of
cones. -/
theorem opening_cases (h : KeepsTypes seat) (task : Task) (e : σ) :
    (∃ x e', opening task e = (.error (.fault x), e')) ∨
    (∃ cause e', opening task e = (.error (.error cause), e') ∧ seat e' = seat e) ∨
    ∃ worker e', opening task e = (.ok ([(seat e).registry.next], worker), e') ∧
      seat e' = withCone (seat e) := by
  unfold opening
  obtain ⟨a, e', hall, hseat⟩ | ⟨e', hall, hseat⟩ := h.registerAll_layouts e
  · rw [hall]
    cases a with
    | fault x => exact .inl ⟨x, e', rfl⟩
    | error cause => exact .inr (.inl ⟨cause, e', rfl, hseat⟩)
  · rw [hall]
    dsimp only
    rcases Cell.schema.capacity e' [(seat e).registry.next] task.limit with (cause | x) | capacity
    · exact .inr (.inr ⟨_, e', rfl, hseat⟩)
    · exact .inl ⟨x, e', rfl⟩
    · dsimp only
      rcases Buffer.allocate capacity with _ | buffer
      · exact .inl ⟨_, e', rfl⟩
      · exact .inr (.inr ⟨_, e', rfl, hseat⟩)

theorem seat_closing (h : KeepsTypes seat) (hseat : seat e = withCone s)
    (result : Except ExchangeError Report) :
    seat (closing [s.registry.next] result e).2 = withoutCone s := by
  have hfree := h.free s.registry.next e
  rw [hseat, free_withCone] at hfree
  obtain ⟨hok, hafter⟩ := hfree
  unfold closing freeAll
  rcases hcall : Endpoint.free s.registry.next e with ⟨cause | ⟨⟩, e'⟩
  · rw [hcall] at hok
    cases hok
  · rw [hcall] at hafter
    exact hafter

theorem seat_round (h : KeepsTypes seat) (w : Worker) (e : σ) (root : Nat) :
    seat (round w e root).2 = seat e := by
  have hkept := h.broadcast (w.prepare root).buffer.contents root e
  unfold round
  dsimp only
  rcases hsend : Channel.broadcast (w.prepare root).buffer.contents root e with
    ⟨cause | arrived, e'⟩
  · rw [hsend] at hkept
    exact hkept
  · rw [hsend] at hkept
    exact hkept

theorem seat_rounds (h : KeepsTypes seat) (w : Worker) (e : σ) (roots : List Nat) :
    seat (rounds w e roots).2 = seat e := by
  induction roots generalizing w e with
  | nil => rfl
  | cons root later ih =>
      unfold rounds
      split
      · rfl
      · exact (ih _ _).trans (h.seat_round w e root)

/-- However an exchange returns, the type of cones is not registered any more. -/
theorem seat_synchronize (h : KeepsTypes seat) (task : Task) (e : σ)
    (hresult : ∀ x, (synchronize task e).result ≠ .error (.fault x)) :
    seat (synchronize task e).endpoint = seat e ∨
      seat (synchronize task e).endpoint = withoutCone (seat e) := by
  unfold synchronize at hresult ⊢
  obtain ⟨x, e', hopen⟩ | ⟨cause, e', hopen, hseat⟩ | ⟨worker, e', hopen, hseat⟩ :=
    h.opening_cases task e
  · rw [hopen] at hresult
    exact absurd rfl (hresult x)
  · rw [hopen]
    exact .inl hseat
  · rw [hopen]
    right
    cases worker with
    | error cause => exact h.seat_closing hseat (.error cause)
    | ok w =>
        have hrounds := h.seat_rounds w e' (List.range (Endpoint.size e'))
        exact h.seat_closing (hrounds.trans hseat) _

theorem registry_synchronize (h : KeepsTypes seat) (task : Task) (e : σ)
    (hn : (seat e).registry.Numbered)
    (hresult : ∀ x, (synchronize task e).result ≠ .error (.fault x)) :
    (seat (synchronize task e).endpoint).registry.types = (seat e).registry.types ∧
      (seat e).registry.next ≤ (seat (synchronize task e).endpoint).registry.next ∧
      (seat (synchronize task e).endpoint).registry.next ≤ (seat e).registry.next + 1 := by
  obtain hseat | hseat := h.seat_synchronize task e hresult
  · rw [hseat]
    exact ⟨rfl, by omega, by omega⟩
  · rw [hseat]
    exact ⟨hn.filter_next, Nat.le_succ _, Nat.le_refl _⟩

end KeepsTypes

/-! ## Runs of calls

The log of a run says what the registry holds. This is an invariant of runs (`Explains`), with a
lemma for each way in which a call may change the registry: it gives out a handle, releases one,
or leaves the live ones as they are.
-/

/-- A call on a channel that has to do with types. -/
inductive Call where
  | register (layout : Composite)
  | free (handle : Nat)
  | bytes (count handle : Nat)
  | exchange (task : Task)

/-- A call with what it answered. -/
inductive Entry where
  | register (layout : Composite) (answer : Except (Abort ExchangeError) Nat)
  | free (handle : Nat) (answer : Except ExchangeError Unit)
  | bytes (count handle : Nat) (answer : Except (Abort ExchangeError) Nat)
  | exchange (answer : Except (Abort ExchangeError) Report)

/-- Make a call. -/
def perform (e : σ) : Call → Entry × σ
  | .register c => (.register c (Endpoint.register c e).1, (Endpoint.register c e).2)
  | .free handle => (.free handle (Endpoint.free handle e).1, (Endpoint.free handle e).2)
  | .bytes count handle => (.bytes count handle (Endpoint.compositeBytes e count handle), e)
  | .exchange task => (.exchange (synchronize task e).result, (synchronize task e).endpoint)

/-- Make calls one after the other, and keep a log. -/
def performAll (e : σ) : List Call → List Entry × σ
  | [] => ([], e)
  | call :: rest =>
    let (entry, e') := perform e call
    let (log, e'') := performAll e' rest
    (entry :: log, e'')

namespace Entry

/-- The handle that a registration gave out. -/
def handle? : Entry → Option Nat
  | .register _ (.ok handle) => some handle
  | _ => none

def frees (handle : Nat) : Entry → Prop
  | .free other _ => other = handle
  | _ => False

/-- Whether a call that came back may have registered a type. -/
def registers : Entry → Bool
  | .register _ (.ok _) => true
  | .exchange _ => true
  | _ => false

/-- Whether an exchange did not return. -/
def faults : Entry → Prop
  | .exchange (.error (.fault _)) => True
  | _ => False

end Entry

/-- The handles that were given out, in order. -/
def handles (log : List Entry) : List Nat := log.filterMap Entry.handle?

/-- A handle was given out for a layout and has not been released since. -/
def Live (log : List Entry) (handle : Nat) (c : Composite) : Prop :=
  ∃ before after, log = before ++ .register c (.ok handle) :: after ∧
    ∀ entry ∈ after, ¬ entry.frees handle

theorem live_concat {log : List Entry} {entry : Entry} {handle : Nat} {c : Composite} :
    Live (log ++ [entry]) handle c ↔
      entry = .register c (.ok handle) ∨ Live log handle c ∧ ¬ entry.frees handle := by
  constructor
  · rintro ⟨before, after, hlog, hafter⟩
    -- The registration is the last entry, or the last entry is one behind it.
    obtain rfl | ⟨after, last, rfl⟩ := List.eq_nil_or_concat after
    · left
      exact (List.append_singleton_inj.mp hlog).2
    · right
      rw [List.concat_eq_append] at hlog hafter
      rw [← List.cons_append, ← List.append_assoc] at hlog
      obtain ⟨rfl, rfl⟩ := List.append_singleton_inj.mp hlog
      exact ⟨⟨before, after, rfl, fun x hx => hafter x (List.mem_append_left _ hx)⟩,
        hafter _ (List.mem_append_right _ (List.mem_singleton_self _))⟩
  · rintro (rfl | ⟨⟨before, after, rfl, hafter⟩, hfrees⟩)
    · exact ⟨log, [], rfl, fun x hx => absurd hx List.not_mem_nil⟩
    · refine ⟨before, after ++ [entry], by simp, ?_⟩
      intro x hx
      obtain hx | hx := List.mem_append.mp hx
      · exact hafter x hx
      · rwa [List.mem_singleton.mp hx]

/-- What a registry holds, by the log of a run. -/
structure Explains (log : List Entry) (r : Registry) : Prop where
  increasing : (handles log).Pairwise (· < ·)
  below : ∀ handle ∈ handles log, handle < r.next
  few : r.next ≤ log.countP Entry.registers
  numbered : r.Numbered
  live : ∀ handle c, r.types.lookup handle = some c ↔ Live log handle c

theorem explains_empty : Explains [] .empty where
  increasing := .nil
  below _ h := absurd h List.not_mem_nil
  few := Nat.le_refl 0
  numbered _ h := absurd h List.not_mem_nil
  live handle c := by
    refine iff_of_false (fun h => nomatch h) ?_
    rintro ⟨before, after, hlog, -⟩
    simp at hlog

namespace Explains

variable {log : List Entry} {r r' : Registry}

theorem handles_concat (log : List Entry) (entry : Entry) :
    handles (log ++ [entry]) = handles log ++ entry.handle?.toList := by
  cases h : entry.handle? <;> simp [handles, h]

/-- A call that gives out no handle and releases none of the live ones. -/
theorem concat_quiet (h : Explains log r) {entry : Entry} (hhandle : entry.handle? = none)
    (hfrees : ∀ handle c, entry.frees handle → ¬ Live log handle c)
    (htypes : r'.types = r.types) (hnext : r.next ≤ r'.next)
    (hfew : r'.next ≤ r.next + if entry.registers then 1 else 0) :
    Explains (log ++ [entry]) r' where
  increasing := by
    rw [handles_concat, hhandle]
    simpa using h.increasing
  below := by
    rw [handles_concat, hhandle]
    intro handle hmem
    have := h.below handle (by simpa using hmem)
    omega
  few := by
    have := h.few
    rw [List.countP_append, List.countP_singleton]
    omega
  numbered p hp := Nat.lt_of_lt_of_le (h.numbered p (htypes ▸ hp)) hnext
  live handle c := by
    -- Live handles stay live, and no other handle becomes so.
    rw [htypes, h.live, live_concat]
    constructor
    · intro hlive
      exact .inr ⟨hlive, fun hfree => hfrees handle c hfree hlive⟩
    · rintro (rfl | ⟨hlive, -⟩)
      · cases hhandle
      · exact hlive

/-- A call that leaves the registry as it is. -/
theorem concat_same (h : Explains log r) {entry : Entry} (hhandle : entry.handle? = none)
    (hfrees : ∀ handle c, entry.frees handle → ¬ Live log handle c) :
    Explains (log ++ [entry]) r :=
  h.concat_quiet hhandle hfrees rfl (Nat.le_refl _) (Nat.le_add_right _ _)

theorem concat_register (h : Explains log r) (c : Composite) :
    Explains (log ++ [.register c (.ok r.next)]) ⟨r.next + 1, (r.next, c) :: r.types⟩ where
  increasing := by
    rw [handles_concat, List.pairwise_append]
    refine ⟨h.increasing, List.pairwise_singleton _ _, ?_⟩
    intro handle hmem next hnext
    rw [show next = r.next by simpa [Entry.handle?] using hnext]
    exact h.below handle hmem
  below := by
    rw [handles_concat]
    intro handle hmem
    obtain hmem | hmem := List.mem_append.mp hmem
    · exact Nat.lt_succ_of_lt (h.below handle hmem)
    · rw [show handle = r.next by simpa [Entry.handle?] using hmem]
      exact Nat.lt_succ_self _
  few := by
    have := h.few
    rw [List.countP_append, List.countP_singleton]
    exact Nat.succ_le_succ this
  numbered p hp := by
    obtain rfl | hp := List.mem_cons.mp hp
    · exact Nat.lt_succ_self _
    · exact Nat.lt_succ_of_lt (h.numbered p hp)
  live handle c' := by
    rw [live_concat, ← h.live, List.lookup_cons]
    by_cases hnew : handle = r.next
    · -- The new handle stood for nothing before.
      subst hnew
      simp [h.numbered.lookup_next, Entry.frees]
    · simp [beq_false_of_ne hnew, Ne.symm hnew, Entry.frees]

theorem concat_free (h : Explains log r) (handle : Nat) :
    Explains (log ++ [.free handle (.ok ())])
      { r with types := r.types.filter (·.1 != handle) } where
  increasing := by
    rw [handles_concat]
    simpa [Entry.handle?] using h.increasing
  below := by
    rw [handles_concat]
    intro other hmem
    exact h.below other (by simpa [Entry.handle?] using hmem)
  few := by
    rw [List.countP_append]
    exact Nat.le_trans h.few (Nat.le_add_right _ _)
  numbered p hp := h.numbered p (List.mem_filter.mp hp).1
  live other c := by
    rw [Registry.lookup_filter_ne, live_concat, ← h.live]
    by_cases hother : other = handle
    · simp [hother, Entry.frees]
    · simp [hother, Ne.symm hother, Entry.frees]

theorem not_live (h : Explains log r) {handle : Nat} (hnone : r.types.lookup handle = none)
    (c : Composite) : ¬ Live log handle c := by
  rw [← h.live, hnone]
  simp

/-! ### Calls in turn

Which of these ways a call takes is seen from its answer. An exchange gives back the one handle that
it takes, and so it is a quiet call.
-/

/-- What one call does. -/
theorem perform (h : Explains log (seat e).registry) (hk : KeepsTypes seat) (call : Call)
    (hf : ¬ (perform e call).1.faults) :
    Explains (log ++ [(perform e call).1]) (seat (perform e call).2).registry := by
  cases call with
  | register c =>
      dsimp only [Exchange.perform]
      obtain ⟨hanswer, hseat⟩ | ⟨⟨a, hanswer⟩, hseat⟩ := hk.register c e
      · rw [hanswer, hseat]
        rcases hcheck : c.check with a | ⟨⟩
        · rw [Seat.register_of_refused hcheck]
          exact h.concat_same rfl fun _ _ hfree => hfree.elim
        · rw [Seat.register_of_check hcheck]
          exact h.concat_register c
      · rw [hanswer, hseat]
        exact h.concat_same rfl fun _ _ hfree => hfree.elim
  | free handle =>
      dsimp only [Exchange.perform]
      obtain ⟨hanswer, hseat⟩ := hk.free handle e
      rw [hanswer, hseat]
      rcases hlookup : (seat e).registry.types.lookup handle with _ | c
      · -- A handle that stands for nothing has been released before, or was never given out.
        rw [Seat.free_of_unknown hlookup]
        refine h.concat_same rfl ?_
        rintro other c rfl
        exact h.not_live hlookup c
      · rw [Seat.free_of_live hlookup]
        exact h.concat_free handle
  | bytes count handle =>
      exact h.concat_same rfl fun _ _ hfree => hfree.elim
  | exchange task =>
      have hresult : ∀ x, (synchronize task e).result ≠ .error (.fault x) := by
        intro x hx
        apply hf
        dsimp only [Exchange.perform]
        rw [hx]
        trivial
      obtain ⟨htypes, hnext, hfew⟩ := hk.registry_synchronize task e h.numbered hresult
      exact h.concat_quiet rfl (fun _ _ hfree => hfree.elim) htypes hnext hfew

/-- What a whole run does. -/
theorem performAll (h : Explains log (seat e).registry) (hk : KeepsTypes seat) (calls : List Call)
    (hf : ∀ entry ∈ (performAll e calls).1, ¬ entry.faults) :
    Explains (log ++ (performAll e calls).1) (seat (performAll e calls).2).registry := by
  -- The log so far is general, since every call is explained on top of those before it.
  induction calls generalizing log e with
  | nil => simpa [Exchange.performAll] using h
  | cons call rest ih =>
      have hfirst := h.perform hk call (hf _ List.mem_cons_self)
      have hrest := ih hfirst fun entry hentry => hf entry (List.mem_cons_of_mem _ hentry)
      rwa [List.append_assoc] at hrest

end Explains

/-! ## Registrations over whole runs

What a registry answers can be read off from the log, and what it refuses leaves it as it is.
-/

theorem Explains.bytes_of_live {log : List Entry} {r : Registry} (h : Explains log r) {handle : Nat}
    {c : Composite} (hlive : Live log handle c) (count : Nat) :
    r.bytes count handle =
      if count * c.bytes < Count.range64 then .ok (count * c.bytes)
      else .error (.fault .overflow) := by
  have hlayout := Registry.layout_eq_ok_iff.mpr ((h.live handle c).mpr hlive)
  rw [Registry.bytes, hlayout, ← faulting_checked_eq_ite]
  rfl

theorem Explains.layout_of_not_live {log : List Entry} {r : Registry} (h : Explains log r)
    {handle : Nat} (hnone : ∀ c, ¬ Live log handle c) :
    r.layout handle = .error (.unknownType handle) := by
  rw [Registry.layout_of_lookup_none]
  rw [Option.eq_none_iff_forall_ne_some]
  intro c hc
  exact hnone c ((h.live handle c).mp hc)

/-- A registration that fails changes nothing. -/
theorem KeepsTypes.seat_register_of_error (h : KeepsTypes seat) {c : Composite}
    {a : Abort ExchangeError} (ha : (Endpoint.register c e).1 = .error a) :
    seat (Endpoint.register c e).2 = seat e := by
  obtain ⟨hanswer, hseat⟩ | ⟨-, hseat⟩ := h.register c e
  · rcases hcheck : c.check with a' | ⟨⟩
    · rw [hseat, Seat.register_of_refused hcheck]
    · rw [hanswer, Seat.register_of_check hcheck] at ha
      cases ha
  · exact hseat

/-- A release that fails changes nothing. -/
theorem KeepsTypes.seat_free_of_error (h : KeepsTypes seat) {handle : Nat} {cause : ExchangeError}
    (hc : (Endpoint.free handle e).1 = .error cause) :
    seat (Endpoint.free handle e).2 = seat e := by
  obtain ⟨hanswer, hseat⟩ := h.free handle e
  rcases hlookup : (seat e).registry.types.lookup handle with _ | c
  · rw [hseat, Seat.free_of_unknown hlookup]
  · rw [hanswer, Seat.free_of_live hlookup] at hc
    cases hc

theorem types_synchronizeGroup {members : List (Task × Seat)} {outcomes : List (Outcome Seat)}
    (h : synchronizeGroup members = .ok outcomes) (hn : ∀ m ∈ members, m.2.registry.Numbered) :
    outcomes.map (·.endpoint.registry.types) = members.map (·.2.registry.types) := by
  rw [synchronizeGroup_eq (room_of_synchronizeGroup h)] at h
  obtain rfl := Except.ok.inj h
  have hlength : (groupRounds (freshWorkers members)).length = members.length := by
    rw [groupRounds, ← roundsTo, length_roundsTo, freshWorkers, List.length_map]
  apply List.ext_getElem
  · simp [hlength]
  · intro i hi hi'
    simp only [List.getElem_map, List.getElem_zipWith]
    exact (hn _ (List.getElem_mem _)).filter_next

/-- On every channel and over every run whose exchanges return: handles differ, a handle stands
for its layout exactly from its registration to its first release and is sized by it, what
fails changes nothing, and an exchange leaves the live registrations as they were. -/
theorem registrations_over_runs (hk : KeepsTypes seat) (he : (seat e).registry = .empty)
    (calls : List Call) (hreturn : ∀ entry ∈ (performAll e calls).1, ¬ entry.faults) :
    let log := (performAll e calls).1
    let after := (performAll e calls).2
    let r := (seat after).registry
    ((handles log).Nodup ∧ (log.countP Entry.registers < Count.range32 →
      ∀ handle ∈ handles log, handle < Count.range32)) ∧
    (∀ handle c, r.layout handle = .ok c ↔ Live log handle c) ∧
    (∀ handle c, Live log handle c → ∀ count, r.bytes count handle =
      let bytes := count * (c.members.map (·.kind.size)).sum
      if bytes < Count.range64 then .ok bytes else .error (.fault .overflow)) ∧
    (∀ handle, (∀ c, ¬ Live log handle c) → r.layout handle = .error (.unknownType handle) ∧
      ∀ count, r.bytes count handle = .error (.error (.unknownType handle))) ∧
    (∀ c a, (Endpoint.register c after).1 = .error a →
      seat (Endpoint.register c after).2 = seat after) ∧
    (∀ handle cause, (Endpoint.free handle after).1 = .error cause →
      seat (Endpoint.free handle after).2 = seat after) ∧
    (∀ task, (∀ x, (synchronize task after).result ≠ .error (.fault x)) →
      (seat (synchronize task after).endpoint).registry.types = r.types) ∧
    r.Numbered ∧
    ∀ members outcomes, synchronizeGroup members = .ok outcomes →
      (∀ m ∈ members, m.2.registry.Numbered) →
        outcomes.map (·.endpoint.registry.types) = members.map (·.2.registry.types) := by
  have hempty : Explains [] (seat e).registry := he ▸ explains_empty
  have hrun := hempty.performAll hk calls hreturn
  rw [List.nil_append] at hrun
  -- The log explains the registry at the end, and every part is read off from that.
  refine ⟨⟨?_, ?_⟩, ?_, fun handle c hlive => hrun.bytes_of_live hlive, ?_,
    fun c a => hk.seat_register_of_error, fun handle cause => hk.seat_free_of_error, ?_,
    hrun.numbered, fun members outcomes => types_synchronizeGroup⟩
  · exact hrun.increasing.imp Nat.ne_of_lt
  · intro hfew handle hmem
    have := hrun.below handle hmem
    have := hrun.few
    omega
  · intro handle c
    rw [Registry.layout_eq_ok_iff, hrun.live]
  · intro handle hnone
    have hlayout := hrun.layout_of_not_live hnone
    refine ⟨hlayout, fun count => ?_⟩
    rw [Registry.bytes, hlayout]
    rfl
  · intro task hresult
    exact (hk.registry_synchronize task _ hrun.numbered hresult).1

end

/-- Two doubles side by side. -/
def pairLayout : Composite := ⟨"pair", [⟨"a", .double, 0⟩, ⟨"b", .double, 8⟩], 16⟩

/-- An exchange that fails, between two registrations, takes a handle for itself. -/
def interleaved : List Call :=
  [.register pairLayout, .exchange crowded, .register pairLayout, .free 0, .free 0, .bytes 3 2]

theorem registrations_over_runs_interleaved :
    handles (performAll noisy interleaved).1 = [0, 2] ∧
    Live (performAll noisy interleaved).1 2 pairLayout ∧
    (performAll noisy interleaved).2.seat.registry.layout 2 = .ok pairLayout ∧
    (performAll noisy interleaved).2.seat.registry.bytes 3 2 = .ok 48 ∧
    (∀ c, ¬ Live (performAll noisy interleaved).1 0 c) ∧
    (performAll noisy interleaved).2.seat.registry.layout 0 = .error (.unknownType 0) := by
  have hlog : (performAll noisy interleaved).1 =
      [.register pairLayout (.ok 0), .exchange (.error (.error (.bufferOverflow 4 4 4))),
        .register pairLayout (.ok 2), .free 0 (.ok ()), .free 0 (.error (.unknownType 0)),
        .bytes 3 2 (.ok 48)] := rfl
  obtain ⟨-, hlayout, hbytes, hnone, -⟩ := registrations_over_runs (e := noisy) keeps_line rfl
    interleaved (by rw [hlog]; simp [Entry.faults])
  have hlive : Live (performAll noisy interleaved).1 2 pairLayout :=
    ⟨[_, _], [_, _, _], hlog, by simp [Entry.frees]⟩
  have hreleased : ∀ c, ¬ Live (performAll noisy interleaved).1 0 c := by
    intro c hc
    cases (hlayout 0 c).mpr hc
  exact ⟨rfl, hlive, (hlayout 2 pairLayout).mpr hlive, hbytes 2 pairLayout hlive 3, hreleased,
    (hnone 0 hreleased).1⟩

/-- The size of many values leaves the 64-bit range although the type is registered. -/
theorem bytes_beyond_range :
    Live (performAll Solo.empty [.register pairLayout]).1 0 pairLayout ∧
    1152921504606846976 * (pairLayout.members.map (·.kind.size)).sum = Count.range64 ∧
    (performAll Solo.empty [.register pairLayout]).2.seat.registry.bytes 1152921504606846976 0 =
      .error (.fault .overflow) :=
  ⟨⟨[], [], rfl, by simp⟩, rfl, rfl⟩

end Exchange

end StellarWind
