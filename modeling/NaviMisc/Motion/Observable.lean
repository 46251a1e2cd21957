import Mathlib.Data.Finmap
import NaviMisc.Lib.Runs

/-!
`Event` of `Graph/Observable.py`: observers in three containers, and deliveries
that the observers themselves interrupt.
-/

namespace NaviMisc.Motion.Observable

inductive Fault
  | keyError
  | valueError
  | deadReference

inductive Kind
  | weak
  | strong
  | once
  deriving DecidableEq

/-- A callback in its wrapper, by itself, or as a `oneshot`. -/
structure Callable (C : Type) where
  callback : C
  kind : Kind
  deriving DecidableEq

structure Event (C A : Type) where
  clients : Finmap fun _ : ℤ => Callable C
  callables : List (Callable C)
  args : Finmap fun _ : ℤ => A

variable {C A : Type} [DecidableEq C]

/-- `list.insert`, which counts a negative index from the end and stops at both ends. -/
def insertAt {β : Type} (index : ℤ) (x : β) (l : List β) : List β :=
  let index := if index < 0 then index + l.length + 1 else index
  let index := if index < 0 then index + l.length else index
  l.insertIdx (min index.toNat l.length) x

section Event

variable (hash : C → ℤ)

def Event.empty : Event C A := ⟨∅, [], ∅⟩

def Event.register (e : Event C A) (callable : Callable C) (args : A) (index : ℤ) : Event C A :=
  if hash callable.callback ∈ e.clients then e
  else
    { clients := e.clients.insert (hash callable.callback) callable
      callables := insertAt index callable e.callables
      args := e.args.insert (hash callable.callback) args }

def Event.observe (e : Event C A) (callback : C) (args : A) (index : ℤ) : Event C A :=
  e.register hash ⟨callback, .weak⟩ args index

def Event.strongObserve (e : Event C A) (callback : C) (args : A) (index : ℤ) : Event C A :=
  e.register hash ⟨callback, .strong⟩ args index

def Event.observeOnce (e : Event C A) (oneshot : C) (args : A) (index : ℤ) : Event C A :=
  e.register hash ⟨oneshot, .once⟩ args index

def Event.replace (callback : C) (args : A) (index : ℤ) : Event C A :=
  Event.empty.observe hash callback args index

def Event.unobserve (e : Event C A) (callback : C) : Event C A × Option Fault :=
  match e.clients.lookup (hash callback) with
  | none => (e, some .keyError)
  | some callable =>
    let e := { e with clients := e.clients.erase (hash callback) }
    if hash callback ∉ e.args then (e, some .keyError)
    else
      let e := { e with args := e.args.erase (hash callback) }
      if callable ∉ e.callables then (e, some .valueError)
      else ({ e with callables := e.callables.erase callable }, none)

def Event.unref (e : Event C A) (callback : C) : Event C A :=
  if hash callback ∈ e.clients then
    { e with
      clients := e.clients.erase (hash callback)
      callables := e.callables.erase ⟨callback, .weak⟩ }
  else e

end Event

abbrev Observers (C : Type) := List (Callable C)

section Observers

variable (hash : C → ℤ)

def Observers.add (observers : Observers C) (x : Callable C) (index : ℤ) : Observers C :=
  if ∃ y ∈ observers, hash y.callback = hash x.callback then observers
  else insertAt index x observers

def Observers.remove (observers : Observers C) (callback : C) : Observers C :=
  observers.filter fun x => hash x.callback ≠ hash callback

def Observers.has (observers : Observers C) (callback : C) : Bool :=
  observers.any fun x => x.callback = callback

end Observers

/-- One call of the event. For the record, `registered` are the observers at its start, and `turned`
says of each that had its turn whether it was registered then. -/
structure Delivery (C A : Type) where
  registered : Observers C
  callables : List (Callable C)
  remaining : List (Callable C)
  running : Option (Callable C)
  calls : List (Callable C × A)
  turned : List (Callable C × Bool)
  raised : Option Fault
  aborted : Bool

def Delivery.advance (d : Delivery C A) (client : Callable C) (remaining : List (Callable C))
    (registered : Bool) : Delivery C A :=
  { d with remaining, turned := d.turned ++ [(client, registered)] }

structure State (C A : Type) where
  event : Event C A
  observers : Observers C
  deliveries : List (Delivery C A)
  finished : List (Delivery C A)
  dead : List C

/-- What observers do while they run, and others while none does. -/
inductive Action (C A : Type)
  | observe (callback : C) (args : A) (index : ℤ)
  | strongObserve (callback : C) (args : A) (index : ℤ)
  | observeOnce (oneshot : C) (args : A) (index : ℤ)
  | unobserve (callback : C)
  | replace (callback : C) (args : A) (index : ℤ)
  | die (callback : C)
  | notify
  | turn
  | leave (result : Bool)

section State

variable (hash : C → ℤ)

def State.empty : State C A := ⟨Event.empty, [], [], [], []⟩

def State.acting (s : State C A) : Bool :=
  match s.deliveries with
  | [] => true
  | d :: _ => d.running.isSome

def State.notify (s : State C A) : State C A :=
  if s.event.callables.isEmpty then s
  else
    { s with deliveries :=
        { registered := s.observers
          callables := s.event.callables
          remaining := s.event.callables
          running := none
          calls := []
          turned := []
          raised := none
          aborted := false } :: s.deliveries }

def State.finish (s : State C A) (d : Delivery C A) : State C A :=
  { s with deliveries := s.deliveries.tail, finished := d :: s.finished }

/-- A `oneshot` takes itself away before anything else. -/
def State.call (s : State C A) (d : Delivery C A) (client : Callable C) : State C A :=
  if client.kind = .weak ∧ client.callback ∈ s.dead then
    s.finish { d with raised := some .deadReference }
  else if client.kind = .once then
    match s.event.unobserve hash client.callback with
    | (event, none) =>
      { s with
        event
        observers := s.observers.remove hash client.callback
        deliveries := { d with running := some client } :: s.deliveries.tail }
    | (event, some fault) => { s with event }.finish { d with raised := some fault }
  else { s with deliveries := { d with running := some client } :: s.deliveries.tail }

def State.turn (s : State C A) : State C A :=
  match s.deliveries with
  | [] => s
  | d :: _ =>
    if d.running.isSome then s
    else
      match d.remaining with
      | [] => s.finish d
      | client :: remaining =>
        let d := d.advance client remaining (s.observers.has client.callback)
        match s.event.args.lookup (hash client.callback) with
        | none => s.finish { d with raised := some .keyError }
        | some args => s.call hash { d with calls := d.calls ++ [(client, args)] } client

def State.leave (s : State C A) (result : Bool) : State C A :=
  match s.deliveries with
  | [] => s
  | d :: rest =>
    match d.running with
    | none => s
    | some client =>
      if result ∧ client.kind ≠ .weak then s.finish { d with running := none, aborted := true }
      else { s with deliveries := { d with running := none } :: rest }

def State.held (s : State C A) (callback : C) : Bool :=
  (s.event.callables.any fun x => x.callback = callback ∧ x.kind ≠ .weak) ||
    s.deliveries.any fun d =>
      (d.callables.any fun x => x.callback = callback ∧ x.kind ≠ .weak) ||
        d.running.any fun x => x.callback = callback

def State.wrapped (s : State C A) (callback : C) : Bool :=
  ⟨callback, .weak⟩ ∈ s.event.callables ||
    s.deliveries.any fun d => ⟨callback, .weak⟩ ∈ d.callables

def State.die (s : State C A) (callback : C) : State C A :=
  if s.held callback then s
  else
    { s with
      dead := callback :: s.dead
      observers := s.observers.filter (· ≠ ⟨callback, .weak⟩)
      event := if s.wrapped callback then s.event.unref hash callback else s.event }

/-- Nothing is done with a callback that is gone. The `KeyError` for an observer that is not there is
its caller's. -/
def step (s : State C A) : Action C A → State C A
  | .observe callback args index =>
    if s.acting ∧ callback ∉ s.dead then
      { s with
        event := s.event.observe hash callback args index
        observers := s.observers.add hash ⟨callback, .weak⟩ index }
    else s
  | .strongObserve callback args index =>
    if s.acting ∧ callback ∉ s.dead then
      { s with
        event := s.event.strongObserve hash callback args index
        observers := s.observers.add hash ⟨callback, .strong⟩ index }
    else s
  | .observeOnce oneshot args index =>
    if s.acting ∧ oneshot ∉ s.dead then
      { s with
        event := s.event.observeOnce hash oneshot args index
        observers := s.observers.add hash ⟨oneshot, .once⟩ index }
    else s
  | .unobserve callback =>
    if s.acting ∧ callback ∉ s.dead then
      { s with
        event := (s.event.unobserve hash callback).1
        observers := s.observers.remove hash callback }
    else s
  | .replace callback args index =>
    if s.acting ∧ callback ∉ s.dead then
      { s with event := Event.replace hash callback args index, observers := [⟨callback, .weak⟩] }
    else s
  | .die callback => s.die hash callback
  | .notify => if s.acting then s.notify else s
  | .turn => s.turn hash
  | .leave result => s.leave result

end State

structure Event.Describes (hash : C → ℤ) (e : Event C A) (observers : Observers C) : Prop where
  callables : e.callables = observers
  nodup : (observers.map fun x => hash x.callback).Nodup
  clients : ∀ h x, e.clients.lookup h = some x ↔ x ∈ observers ∧ hash x.callback = h
  args : ∀ h, h ∈ e.args ↔ ∃ x ∈ observers, hash x.callback = h

structure Delivery.Right (d : Delivery C A) : Prop where
  order : d.turned.map Prod.fst ++ d.remaining = d.registered
  nodup : d.registered.Nodup
  calls : d.calls.map Prod.fst = (d.turned.filter Prod.snd).map Prod.fst
  raised : d.raised = none

structure Correct (hash : C → ℤ) (s : State C A) : Prop where
  event : s.event.Describes hash s.observers
  deliveries : ∀ d ∈ s.deliveries, d.Right
  finished : ∀ d ∈ s.finished, d.Right ∧ (d.remaining = [] ∨ d.aborted)

def Sound (hash : C → ℤ) (s : State C A) : Action C A → Prop
  | .turn => ∀ d rest client remaining, s.deliveries = d :: rest → d.running = none →
      d.remaining = client :: remaining → s.observers.has client.callback
  | .die callback => s.held callback ∨ ¬s.wrapped callback ∨ hash callback ∉ s.event.clients
  | _ => True

section Event

variable {hash : C → ℤ} {e : Event C A} {observers : Observers C}

theorem insertAt_perm {β : Type} (index : ℤ) (x : β) (l : List β) :
    (insertAt index x l).Perm (x :: l) :=
  List.perm_insertIdx x l (Nat.min_le_right _ _)

omit [DecidableEq C] in
theorem Event.Describes.mem_clients (h : e.Describes hash observers) {k : ℤ} :
    k ∈ e.clients ↔ ∃ x ∈ observers, hash x.callback = k := by
  simp only [Finmap.mem_iff, h.clients]

omit [DecidableEq C] in
theorem Event.Describes.empty : (Event.empty : Event C A).Describes hash [] where
  callables := rfl
  nodup := List.nodup_nil
  clients := by simp [Event.empty]
  args := by simp [Event.empty, Finmap.notMem_empty]

omit [DecidableEq C] in
theorem Event.Describes.register (h : e.Describes hash observers) (x : Callable C) (args : A)
    (index : ℤ) : (e.register hash x args index).Describes hash (observers.add hash x index) := by
  rw [Event.register, Observers.add]
  split_ifs with hclients htaken htaken
  · exact h
  · exact absurd (h.mem_clients.mp hclients) htaken
  · exact absurd (h.mem_clients.mpr htaken) hclients
  · have hperm := insertAt_perm index x observers
    refine ⟨by rw [h.callables], ?_, ?_, ?_⟩
    · rw [(hperm.map _).nodup_iff, List.map_cons, List.nodup_cons]
      refine ⟨?_, h.nodup⟩
      intro hmem
      obtain ⟨y, hy, heq⟩ := List.mem_map.mp hmem
      exact htaken ⟨y, hy, heq⟩
    · intro k y
      rw [hperm.mem_iff, List.mem_cons]
      by_cases hk : k = hash x.callback
      · subst hk
        rw [Finmap.lookup_insert, Option.some.injEq]
        constructor
        · rintro rfl
          exact ⟨.inl rfl, rfl⟩
        · rintro ⟨rfl | hy, heq⟩
          · rfl
          · exact absurd ⟨y, hy, heq⟩ htaken
      · rw [Finmap.lookup_insert_of_ne _ hk, h.clients]
        constructor
        · rintro ⟨hy, heq⟩
          exact ⟨.inr hy, heq⟩
        · rintro ⟨rfl | hy, heq⟩
          · exact absurd heq.symm hk
          · exact ⟨hy, heq⟩
    · intro k
      rw [Finmap.mem_insert, h.args]
      simp only [hperm.mem_iff, List.mem_cons, exists_eq_or_imp, eq_comm (a := k)]

omit [DecidableEq C] in
theorem Event.Describes.replace (callback : C) (args : A) (index : ℤ) :
    (Event.replace hash callback args index).Describes hash [⟨callback, .weak⟩] := by
  have hadd : Observers.add hash [] ⟨callback, .weak⟩ index = [⟨callback, .weak⟩] := by
    have hnone : ¬∃ y ∈ ([] : Observers C), hash y.callback = hash callback := by simp
    rw [Observers.add, if_neg hnone]
    exact List.perm_singleton.mp (insertAt_perm _ _ _)
  rw [← hadd]
  exact Event.Describes.empty.register _ args index

omit [DecidableEq C] in
theorem Observers.remove_of_not_mem {callback : C}
    (h : ¬∃ x ∈ observers, hash x.callback = hash callback) :
    observers.remove hash callback = observers := by
  apply List.filter_eq_self.mpr
  intro x hx
  exact decide_eq_true fun heq => h ⟨x, hx, heq⟩

theorem Event.Describes.remove_eq (h : e.Describes hash observers) {x : Callable C}
    (hx : x ∈ observers) : observers.remove hash x.callback = observers.erase x := by
  have hnodup : observers.Nodup := h.nodup.of_map _
  rw [hnodup.erase_eq_filter]
  apply List.filter_congr
  intro y hy
  have heq : hash y.callback = hash x.callback ↔ y = x :=
    ⟨fun heq => List.inj_on_of_nodup_map h.nodup hy hx heq, fun heq => heq ▸ rfl⟩
  rw [Bool.eq_iff_iff, decide_eq_true_iff, bne_iff_ne]
  exact not_congr heq

theorem Event.Describes.unobserve (h : e.Describes hash observers) (callback : C) :
    (e.unobserve hash callback).1.Describes hash (observers.remove hash callback) ∧
      ((∃ x ∈ observers, hash x.callback = hash callback) →
        (e.unobserve hash callback).2 = none) := by
  rw [Event.unobserve]
  cases hlookup : e.clients.lookup (hash callback) with
  | none =>
    have hnone : ¬∃ x ∈ observers, hash x.callback = hash callback := by
      rintro ⟨x, hx⟩
      rw [(h.clients _ x).mpr hx] at hlookup
      cases hlookup
    rw [Observers.remove_of_not_mem hnone]
    exact ⟨h, fun hsome => absurd hsome hnone⟩
  | some x =>
    obtain ⟨hx, hhash⟩ := (h.clients _ x).mp hlookup
    have hargs : hash callback ∈ e.args := (h.args _).mpr ⟨x, hx, hhash⟩
    have hcallables : x ∈ e.callables := h.callables ▸ hx
    have hremove : observers.remove hash callback = observers.erase x := by
      rw [← h.remove_eq hx, Observers.remove, Observers.remove, hhash]
    have hmem : ∀ y, y ∈ observers.remove hash callback ↔
        y ∈ observers ∧ hash y.callback ≠ hash callback := by
      intro y
      rw [Observers.remove, List.mem_filter, decide_eq_true_iff]
    simp only [hargs, hcallables, not_true_eq_false, if_false]
    refine ⟨⟨?_, ?_, ?_, ?_⟩, fun _ => trivial⟩
    · rw [h.callables, hremove]
    · exact h.nodup.sublist (List.filter_sublist.map _)
    · intro k y
      rw [hmem]
      by_cases hk : k = hash callback
      · subst hk
        rw [Finmap.lookup_erase]
        refine iff_of_false (by simp) ?_
        rintro ⟨⟨-, hne⟩, heq⟩
        exact hne heq
      · rw [Finmap.lookup_erase_ne hk, h.clients]
        constructor
        · rintro ⟨hy, heq⟩
          exact ⟨⟨hy, heq ▸ hk⟩, heq⟩
        · rintro ⟨⟨hy, -⟩, heq⟩
          exact ⟨hy, heq⟩
    · intro k
      rw [Finmap.mem_erase, h.args]
      constructor
      · rintro ⟨hk, y, hy, heq⟩
        exact ⟨y, (hmem y).mpr ⟨hy, heq ▸ hk⟩, heq⟩
      · rintro ⟨y, hy, heq⟩
        obtain ⟨hy, hne⟩ := (hmem y).mp hy
        exact ⟨heq ▸ hne, y, hy, heq⟩

theorem Event.Describes.not_unref (h : e.Describes hash observers) {callback : C}
    (hclients : hash callback ∈ e.clients) (observers' : Observers C) :
    ¬(e.unref hash callback).Describes hash observers' := by
  intro h'
  rw [Event.unref, if_pos hclients] at h'
  obtain ⟨x, hx⟩ := (h'.args (hash callback)).mp ((h.args _).mpr (h.mem_clients.mp hclients))
  have hlookup := (h'.clients _ x).mpr hx
  rw [Finmap.lookup_erase] at hlookup
  cases hlookup

end Event

section run

variable {hash : C → ℤ} {s : State C A} {d : Delivery C A} {callback : C}

def Alive (s : State C A) : Prop := ∀ x ∈ s.observers, x.callback ∉ s.dead

theorem has_iff {observers : Observers C} :
    observers.has callback ↔ ∃ x ∈ observers, x.callback = callback := by
  simp [Observers.has]

omit [DecidableEq C] in
theorem Correct.with_event (h : Correct hash s) {e : Event C A} {observers : Observers C}
    (he : e.Describes hash observers) : Correct hash { s with event := e, observers } :=
  ⟨he, h.deliveries, h.finished⟩

omit [DecidableEq C] in
theorem Correct.finish (h : Correct hash s) (hd : d.Right) (hend : d.remaining = [] ∨ d.aborted) :
    Correct hash (s.finish d) where
  event := h.event
  deliveries d' hd' := h.deliveries d' (List.mem_of_mem_tail hd')
  finished := List.forall_mem_cons.mpr ⟨⟨hd, hend⟩, h.finished⟩

omit [DecidableEq C] in
theorem Correct.continue (h : Correct hash s) (hd : d.Right) :
    Correct hash { s with deliveries := d :: s.deliveries.tail } where
  event := h.event
  deliveries := List.forall_mem_cons.mpr
    ⟨hd, fun d' hd' => h.deliveries d' (List.mem_of_mem_tail hd')⟩
  finished := h.finished

omit [DecidableEq C] in
theorem Correct.notify (h : Correct hash s) : Correct hash s.notify := by
  rw [State.notify]
  split
  · exact h
  · refine ⟨h.event, List.forall_mem_cons.mpr ⟨⟨h.event.callables, ?_, rfl, rfl⟩, h.deliveries⟩,
      h.finished⟩
    exact h.event.nodup.of_map _

omit [DecidableEq C] in
theorem Correct.leave (h : Correct hash s) (result : Bool) : Correct hash (s.leave result) := by
  rw [State.leave]
  split
  · exact h
  · rename_i d rest hdeliveries
    have hd := h.deliveries d (hdeliveries ▸ List.mem_cons_self)
    split
    · exact h
    · split
      · exact h.finish ⟨hd.order, hd.nodup, hd.calls, hd.raised⟩ (.inr rfl)
      · have hcontinue := h.continue (d := { d with running := none })
          ⟨hd.order, hd.nodup, hd.calls, hd.raised⟩
        rwa [hdeliveries] at hcontinue

theorem Correct.die_iff (h : Correct hash s) :
    Correct hash (s.die hash callback) ↔ Sound hash s (.die callback) := by
  rw [State.die, Sound]
  split
  · rename_i hheld
    exact iff_of_true h (.inl hheld)
  rename_i hheld
  have hkept : (⟨callback, .weak⟩ : Callable C) ∉ s.observers →
      s.observers.filter (· ≠ ⟨callback, .weak⟩) = s.observers := by
    intro hnot
    apply List.filter_eq_self.mpr
    intro x hx
    exact decide_eq_true (ne_of_mem_of_not_mem hx hnot)
  by_cases hwrapped : s.wrapped callback
  · rw [if_pos hwrapped]
    by_cases hclients : hash callback ∈ s.event.clients
    · refine iff_of_false ?_ (by simp [hheld, hwrapped, hclients])
      exact fun h' => h.event.not_unref hclients _ h'.event
    · refine iff_of_true ?_ (.inr (.inr hclients))
      rw [Event.unref, if_neg hclients, hkept]
      · exact ⟨h.event, h.deliveries, h.finished⟩
      · exact fun hmem => hclients (h.event.mem_clients.mpr ⟨_, hmem, rfl⟩)
  · refine iff_of_true ?_ (.inr (.inl hwrapped))
    rw [if_neg hwrapped, hkept]
    · exact ⟨h.event, h.deliveries, h.finished⟩
    · rw [← h.event.callables]
      exact fun hmem => hwrapped (by simp [State.wrapped, hmem])

theorem Alive.die (h : Alive s) (hcorrect : Correct hash s) : Alive (s.die hash callback) := by
  rw [State.die]
  split
  · exact h
  rename_i hheld
  intro x hx hdead
  obtain ⟨hx, hne⟩ := List.mem_filter.mp hx
  rcases List.mem_cons.mp hdead with heq | hdead
  · have hweak : x.kind = .weak := by
      by_contra hstrong
      rw [← hcorrect.event.callables] at hx
      apply hheld
      rw [State.held, Bool.or_eq_true, List.any_eq_true]
      exact .inl ⟨x, hx, by simp [heq, hstrong]⟩
    obtain ⟨c, kind⟩ := x
    subst heq hweak
    simp at hne
  · exact h x hx hdead

omit [DecidableEq C] in
theorem Delivery.Right.advance (h : d.Right) {client : Callable C} {remaining : List (Callable C)}
    (hremaining : d.remaining = client :: remaining) (args : A) (running : Option (Callable C)) :
    Delivery.Right { d.advance client remaining true with
      calls := d.calls ++ [(client, args)], running } where
  order := by
    have horder := h.order
    rw [hremaining] at horder
    simp only [Delivery.advance, List.map_append, List.append_assoc]
    exact horder
  nodup := h.nodup
  calls := by
    simp only [Delivery.advance, List.map_append, List.filter_append, h.calls]
    rfl
  raised := h.raised

theorem State.call_not_correct {client : Callable C}
    (hd : d.calls.map Prod.fst ≠ (d.turned.filter Prod.snd).map Prod.fst) :
    ¬Correct hash (s.call hash d client) := by
  intro h
  rw [State.call] at h
  split at h
  · exact hd (h.finished _ List.mem_cons_self).1.calls
  split at h
  · split at h
    · exact hd (h.deliveries _ List.mem_cons_self).calls
    · exact hd (h.finished _ List.mem_cons_self).1.calls
  · exact hd (h.deliveries _ List.mem_cons_self).calls

theorem Correct.call (h : Correct hash s) (halive : Alive s) {client x : Callable C}
    (hx : x ∈ s.observers) (heq : x.callback = client.callback)
    (hd : Delivery.Right { d with running := some client }) :
    Correct hash (s.call hash d client) := by
  have hdead : client.callback ∉ s.dead := heq ▸ halive x hx
  rw [State.call, if_neg fun hdies => hdead hdies.2]
  split
  · obtain ⟨hevent, hnone⟩ := h.event.unobserve client.callback
    have hraised := hnone ⟨x, hx, by rw [heq]⟩
    generalize s.event.unobserve hash client.callback = result at hevent hraised
    obtain ⟨event, raised⟩ := result
    obtain rfl : raised = none := hraised
    exact (h.with_event hevent).continue hd
  · exact h.continue hd

theorem Correct.turn_iff (h : Correct hash s) (halive : Alive s) :
    Correct hash (s.turn hash) ↔ Sound hash s .turn := by
  rw [State.turn, Sound]
  split
  · rename_i hdeliveries
    exact iff_of_true h (by simp [hdeliveries])
  rename_i d rest hdeliveries
  have hd := h.deliveries d (hdeliveries ▸ List.mem_cons_self)
  split
  · rename_i hrunning
    refine iff_of_true h ?_
    intro d' rest' client remaining hdeliveries' hnone
    rw [hdeliveries] at hdeliveries'
    obtain ⟨rfl, rfl⟩ := List.cons.inj hdeliveries'
    rw [hnone] at hrunning
    cases hrunning
  rename_i hrunning
  have hnone : d.running = none := by simpa using hrunning
  split
  · rename_i hremaining
    refine iff_of_true (h.finish hd (.inl hremaining)) ?_
    intro d' rest' client remaining hdeliveries' _ hremaining'
    rw [hdeliveries] at hdeliveries'
    obtain ⟨rfl, rfl⟩ := List.cons.inj hdeliveries'
    rw [hremaining] at hremaining'
    cases hremaining'
  rename_i client remaining hremaining
  have hsound : (∀ d' rest' client' remaining', s.deliveries = d' :: rest' → d'.running = none →
      d'.remaining = client' :: remaining' → s.observers.has client'.callback) ↔
        s.observers.has client.callback := by
    constructor
    · exact fun hall => hall d rest client remaining hdeliveries hnone hremaining
    · intro hhas d' rest' client' remaining' hdeliveries' _ hremaining'
      rw [hdeliveries] at hdeliveries'
      obtain ⟨rfl, rfl⟩ := List.cons.inj hdeliveries'
      rw [hremaining] at hremaining'
      obtain ⟨rfl, rfl⟩ := List.cons.inj hremaining'
      exact hhas
  rw [hsound]
  by_cases hhas : s.observers.has client.callback
  · refine iff_of_true ?_ hhas
    obtain ⟨x, hx, heq⟩ := has_iff.mp hhas
    obtain ⟨args, hargs⟩ := Finmap.mem_iff.mp ((h.event.args (hash client.callback)).mpr
      ⟨x, hx, by rw [heq]⟩)
    simp only [hargs, hhas]
    exact h.call halive hx heq (hd.advance hremaining args _)
  · refine iff_of_false ?_ hhas
    rw [Bool.not_eq_true] at hhas
    simp only [hhas]
    split
    · intro h'
      have hraised := (h'.finished _ List.mem_cons_self).1.raised
      cases hraised
    · apply State.call_not_correct
      simp [Delivery.advance, hd.calls, List.filter_append]

omit [DecidableEq C] in
theorem Observers.mem_add {observers : Observers C} {x y : Callable C} {index : ℤ}
    (h : y ∈ observers.add hash x index) : y = x ∨ y ∈ observers := by
  rw [Observers.add] at h
  split at h
  · exact .inr h
  · exact List.mem_cons.mp ((insertAt_perm index x observers).mem_iff.mp h)

omit [DecidableEq C] in
theorem Observers.mem_of_remove {observers : Observers C} {x : Callable C}
    (h : x ∈ observers.remove hash callback) : x ∈ observers :=
  (List.mem_filter.mp h).1

omit [DecidableEq C] in
theorem Alive.add (h : Alive s) {x : Callable C} (hx : x.callback ∉ s.dead) (e : Event C A)
    (index : ℤ) :
    Alive { s with event := e, observers := s.observers.add hash x index } := by
  intro y hy
  rcases Observers.mem_add hy with rfl | hy
  · exact hx
  · exact h y hy

theorem Alive.call (h : Alive s) (client : Callable C) : Alive (s.call hash d client) := by
  rw [State.call]
  split
  · exact h
  split
  · split
    · exact fun x hx => h x (Observers.mem_of_remove hx)
    · exact h
  · exact h

theorem Alive.turn (h : Alive s) : Alive (s.turn hash) := by
  rw [State.turn]
  split
  · exact h
  split
  · exact h
  split
  · exact h
  · simp only
    split
    · exact h
    · exact h.call _

theorem Alive.step (h : Alive s) (hcorrect : Correct hash s) (action : Action C A) :
    Alive (step hash s action) := by
  cases action with
  | observe c args index | strongObserve c args index | observeOnce c args index =>
    rw [Observable.step]
    split
    · rename_i hcan
      exact h.add hcan.2 _ index
    · exact h
  | unobserve c =>
    rw [Observable.step]
    split
    · exact fun x hx => h x (Observers.mem_of_remove hx)
    · exact h
  | replace c args index =>
    rw [Observable.step]
    split
    · rename_i hcan
      intro x hx
      rw [List.mem_singleton.mp hx]
      exact hcan.2
    · exact h
  | die c => exact h.die hcorrect
  | notify =>
    rw [Observable.step, State.notify]
    split_ifs <;> exact h
  | turn => exact h.turn
  | leave result =>
    rw [Observable.step, State.leave]
    split
    · exact h
    split
    · exact h
    · split <;> exact h

theorem correct_step_iff (halive : Alive s) (h : Correct hash s) (action : Action C A) :
    Correct hash (step hash s action) ↔ Sound hash s action := by
  cases action with
  | observe c args index | strongObserve c args index | observeOnce c args index =>
    refine iff_of_true ?_ trivial
    rw [step]
    split
    · exact h.with_event (h.event.register _ args index)
    · exact h
  | unobserve c =>
    refine iff_of_true ?_ trivial
    rw [step]
    split
    · exact h.with_event (h.event.unobserve c).1
    · exact h
  | replace c args index =>
    refine iff_of_true ?_ trivial
    rw [step]
    split
    · exact h.with_event (Event.Describes.replace c args index)
    · exact h
  | die c => exact h.die_iff
  | notify =>
    refine iff_of_true ?_ trivial
    rw [step]
    split
    · exact h.notify
    · exact h
  | turn => exact h.turn_iff halive
  | leave result => exact iff_of_true (h.leave result) trivial

end run

end NaviMisc.Motion.Observable
