import LC3.Proofs.Ending

/-!
# Journals of runs

A run only appends to the journal, and it does not look at it. So a run behind another beginning is
the same run, and what it appends is of the kinds that its console brings about.
-/

namespace LC3

variable {σ : Type}

theorem toList_journal_after {α : Type} (c : Channel σ) (reply : Reply σ α)
    (call : Except Fault α → Call) :
    (c.after reply call).journal.toList =
      c.journal.toList ++ (reply.traffic.map .host ++ [.call (call reply.answer)]) := by
  show ((c.journal.noteTraffic reply.traffic).push _).toList = _
  rw [Array.toList_push, Journal.toList_noteTraffic, List.append_assoc]

theorem mem_journal_after {α : Type} {c : Channel σ} {e : Event} (h : e ∈ c.journal.toList)
    (reply : Reply σ α) (call : Except Fault α → Call) :
    e ∈ (c.after reply call).journal.toList := by
  rw [toList_journal_after]
  exact List.mem_append_left _ h

/-! ## Counting events -/

/-- How many events of a kind were noted. -/
def Journal.count (p : Event → Bool) (j : Journal) : Nat := j.toList.countP p

theorem count_push (p : Event → Bool) (j : Journal) (e : Event) :
    Journal.count p (j.push e) = j.count p + [e].countP p := by
  unfold Journal.count
  rw [Array.toList_push, List.countP_append]

theorem count_le_after {α : Type} (p : Event → Bool) (c : Channel σ) (reply : Reply σ α)
    (call : Except Fault α → Call) : c.journal.count p ≤ (c.after reply call).journal.count p := by
  unfold Journal.count
  rw [toList_journal_after, List.countP_append]
  exact Nat.le_add_right _ _

section CountAfter

variable {α : Type} {p : Event → Bool} (hp : ∀ t, p (.host t) = false) (c : Channel σ)
  {reply : Reply σ α} {call : Except Fault α → Call}

include hp

theorem count_after :
    (c.after reply call).journal.count p =
      c.journal.count p + [Event.call (call reply.answer)].countP p := by
  have htraffic : (reply.traffic.map Event.host).countP p = 0 := by
    rw [List.countP_map]
    exact List.countP_eq_zero.2 fun t _ => Bool.eq_false_iff.1 (hp t)
  unfold Journal.count
  rw [toList_journal_after, List.countP_append, List.countP_append, htraffic, Nat.zero_add]

theorem count_after_of_not (h : p (.call (call reply.answer)) = false) :
    (c.after reply call).journal.count p = c.journal.count p := by
  rw [count_after hp, List.countP_singleton, if_neg (Bool.eq_false_iff.1 h), Nat.add_zero]

theorem count_after_of_call (h : p (.call (call reply.answer)) = true) :
    (c.after reply call).journal.count p = c.journal.count p + 1 := by
  rw [count_after hp, List.countP_singleton, if_pos h]

end CountAfter

/-- A count only grows. -/
theorem counted_simulation [Console σ] (p : Event → Bool) (k : Nat) :
    ChannelSimulation (fun c => k ≤ c.journal.count p)
      (fun _ _ => False : Channel σ → Channel σ → Prop) := by
  have hafter {α : Type} (operation : σ → Reply σ α) (call : Except Fault α → Call) :
      Exchanges (fun c => k ≤ c.journal.count p) (fun _ _ => False : Channel σ → Channel σ → Prop)
        operation operation call :=
    ⟨fun c h => Nat.le_trans h (count_le_after p c _ call), fun _ _ => False.elim⟩
  refine ⟨⟨hafter _ _, hafter _ _, fun _ => hafter _ _, hafter _ _⟩, fun c h => ?_, fun _ _ => id⟩
  rw [count_push]
  exact Nat.le_trans h (Nat.le_add_right _ _)

/-! ## Other beginnings -/

/-- The same device, and the same events behind different beginnings. -/
structure Shifted (before before' : List Event) (c d : Channel σ) : Prop where
  device : c.device = d.device
  journal : ∃ events, c.journal.toList = before ++ events ∧ d.journal.toList = before' ++ events

variable {before before' : List Event}

theorem Shifted.push {d : σ} {j j' : Journal} (e : Event)
    (h : ∃ events, j.toList = before ++ events ∧ j'.toList = before' ++ events) :
    Shifted before before' ⟨d, j.push e⟩ ⟨d, j'.push e⟩ := by
  obtain ⟨events, hj, hj'⟩ := h
  refine ⟨rfl, events ++ [e], ?_, ?_⟩
  · show (j.push e).toList = _
    rw [Array.toList_push, hj, List.append_assoc]
  · show (j'.push e).toList = _
    rw [Array.toList_push, hj', List.append_assoc]

theorem Shifted.exchanges {α : Type} (operation : σ → Reply σ α) (call : Except Fault α → Call) :
    Exchanges (fun _ => False) (Shifted before before') operation operation call := by
  refine ⟨fun _ h => h, ?_⟩
  rintro ⟨d, j⟩ ⟨_, j'⟩ ⟨rfl, events, hj, hj'⟩
  right
  refine ⟨rfl, Shifted.push _ ⟨events ++ (operation d).traffic.map .host, ?_, ?_⟩⟩
  · rw [Journal.toList_noteTraffic, hj, List.append_assoc]
  · rw [Journal.toList_noteTraffic, hj', List.append_assoc]

theorem Shifted.simulation [Console σ] :
    ChannelSimulation (fun _ => False) (Shifted before before' : Channel σ → Channel σ → Prop) where
  read := Shifted.exchanges _ _
  poll := Shifted.exchanges _ _
  write _ := Shifted.exchanges _ _
  flush := Shifted.exchanges _ _
  pauseLost _ h := h
  pause := by
    rintro ⟨d, j⟩ ⟨_, j'⟩ ⟨rfl, hevents⟩
    exact Shifted.push _ hevents

theorem Shifted.agree [Console σ] (size fuel : Nat) :
    Agree (fun _ => False) (OnSameMachine (Shifted before before'))
      (runInSlices size fuel : MachineM σ Unit) (runInSlices size fuel) :=
  Shifted.simulation.simulation.slicesFor (Nat.le_refl fuel) size (Nat.le_refl fuel)

/-! ## Kinds of events -/

/-- Everything noted behind a beginning is of a kind that `P` tells. -/
def Notes (before : List Event) (P : Event → Prop) (c : Channel σ) : Prop :=
  ∃ events, c.journal.toList = before ++ events ∧ ∀ e ∈ events, P e

/-- The events that a machine can cause. -/
structure Causes (σ : Type) [Console σ] (P : Event → Prop) : Prop where
  call (c : Call) : P (.call c)
  pause : P .pause
  read (d : σ) : ∀ t ∈ (Console.read d).traffic, P (.host t)
  poll (d : σ) : ∀ t ∈ (Console.poll d).traffic, P (.host t)
  write (code : Int) (d : σ) : ∀ t ∈ (Console.write code d).traffic, P (.host t)
  flush (d : σ) : ∀ t ∈ (Console.flush d).traffic, P (.host t)

variable {P : Event → Prop}

theorem Notes.add {c d : Channel σ} {events : List Event}
    (hd : d.journal.toList = c.journal.toList ++ events) (hevents : ∀ e ∈ events, P e)
    (h : Notes before P c) : Notes before P d := by
  obtain ⟨noted, hc, hnoted⟩ := h
  refine ⟨noted ++ events, ?_, fun e he => ?_⟩
  · rw [hd, hc, List.append_assoc]
  · rcases List.mem_append.1 he with he | he
    · exact hnoted e he
    · exact hevents e he

theorem Notes.after {α : Type} {c : Channel σ} {reply : Reply σ α} {call : Except Fault α → Call}
    (hcall : P (.call (call reply.answer))) (htraffic : ∀ t ∈ reply.traffic, P (.host t))
    (h : Notes before P c) : Notes before P (c.after reply call) := by
  refine h.add (toList_journal_after c reply call) fun e he => ?_
  rcases List.mem_append.1 he with he | he
  · obtain ⟨t, ht, rfl⟩ := List.mem_map.1 he
    exact htraffic t ht
  · rw [List.mem_singleton.1 he]
    exact hcall

variable [Console σ]

theorem Causes.exchanges (h : Causes σ P) {α : Type} {operation : σ → Reply σ α}
    {call : Except Fault α → Call} (htraffic : ∀ d, ∀ t ∈ (operation d).traffic, P (.host t)) :
    Exchanges (Notes before P) (fun _ _ => False : Channel σ → Channel σ → Prop) operation operation
      call :=
  ⟨fun _ hc => hc.after (h.call _) (htraffic _), fun _ _ hcd => hcd.elim⟩

theorem Causes.simulation (h : Causes σ P) :
    ChannelSimulation (Notes before P) (fun _ _ => False : Channel σ → Channel σ → Prop) where
  read := h.exchanges h.read
  poll := h.exchanges h.poll
  write code := h.exchanges (h.write code)
  flush := h.exchanges h.flush
  pauseLost c hc := by
    refine hc.add Array.toList_push fun e he => ?_
    rw [List.mem_singleton.1 he]
    exact h.pause
  pause _ _ hcd := hcd.elim

/-- A run causes nothing but events of a machine. -/
theorem Causes.notes (h : Causes σ P) (fuel size : Nat) (signalWaiting : Bool) {s : System σ}
    (hs : Notes before P s.channel) :
    Notes before P (leftBy (MachineM.runInterruptibly fuel size signalWaiting s)).channel :=
  h.simulation.simulation.lost_slicesFor fuel size signalWaiting fuel s hs

end LC3
