import NaviMisc.Lib.Runs

/-!
The local queue of frames (client/VectorMachine.py), which any number of threads pump into the
remote queue while the device is connected.
-/

namespace NaviMisc.LaserProp

open NaviMisc.Lib.Runs

variable {τ F : Type*} [DecidableEq τ]

/-- The statement that a thread is about to execute. `done` is the frame that becomes the front
buffer when the pump ends, in a completion callback. -/
inductive Line (F : Type*)
  | idle
  | append (frame : F)
  | replace (frame : F)
  | generate (done : Option F)
  | breakIfEmpty (done : Option F)
  | acquire (done : Option F)
  | whileQueue (done : Option F)
  | next (done : Option F)
  | pass (next : F) (done : Option F)
  | del (done : Option F)
  | release (again : Bool) (done : Option F)
  | setFront (done : Option F)
  | raised

structure FrameBuffer (τ F : Type*) where
  queue : List F
  front : F
  lock : Option τ
  line : τ → Line F
  /-- What was appended, and what the remote queue has accepted. -/
  appended : List F
  accepted : List F

namespace FrameBuffer

def goto (t : τ) (l : Line F) (b : FrameBuffer τ F) : FrameBuffer τ F :=
  { b with line := Function.update b.line t l }

/-- A thread goes on by a statement. There is a remote queue, and the callback for an empty queue
returns nothing. -/
def exec (t : τ) (accepts : Bool) (b : FrameBuffer τ F) : FrameBuffer τ F :=
  match b.line t with
  | .idle => b
  | .append frame =>
    { b with queue := b.queue ++ [frame], appended := b.appended ++ [frame] }.goto t (.generate none)
  | .replace frame => { b with queue := [frame] }.goto t (.generate none)
  | .generate done => b.goto t (.breakIfEmpty done)
  | .breakIfEmpty done => b.goto t (if b.queue.isEmpty then .setFront done else .acquire done)
  | .acquire done => if b.lock.isNone then { b with lock := some t }.goto t (.whileQueue done) else b
  | .whileQueue done => b.goto t (if b.queue.isEmpty then .release true done else .next done)
  | .next done =>
    match b.queue with
    | next :: _ => b.goto t (.pass next done)
    | [] => b.goto t .raised
  | .pass next done =>
    if accepts then { b with accepted := b.accepted ++ [next] }.goto t (.del done)
    else b.goto t (.release false done)
  | .del done =>
    match b.queue with
    | _ :: rest => { b with queue := rest }.goto t (.whileQueue done)
    | [] => b.goto t .raised
  | .release again done =>
    { b with lock := none }.goto t (if again then .generate done else .setFront done)
  | .setFront none => b.goto t .idle
  | .setFront (some frame) => { b with front := frame }.goto t .idle
  | .raised => b

inductive Call (F : Type*)
  | append (frame : F)
  | replace (frame : F)
  | queueCompletionCb (frame : F)

def Call.line : Call F → Line F
  | append frame => .append frame
  | replace frame => .replace frame
  | queueCompletionCb frame => .generate (some frame)

inductive Event (τ F : Type*)
  | call (t : τ) (c : Call F)
  | exec (t : τ) (accepts : Bool)

def step (b : FrameBuffer τ F) : Event τ F → FrameBuffer τ F
  | .call t c =>
    match b.line t with
    | .idle => b.goto t c.line
    | _ => b
  | .exec t accepts => b.exec t accepts

def init (queue : List F) (front : F) : FrameBuffer τ F where
  queue := queue
  front := front
  lock := none
  line _ := .idle
  appended := queue
  accepted := []

end FrameBuffer

namespace Line

def Holds : Line F → Prop
  | whileQueue _ | next _ | pass _ _ | del _ | release _ _ => True
  | _ => False

def Needs : Line F → Prop
  | next _ | pass _ _ | del _ => True
  | _ => False

theorem Needs.holds {l : Line F} (h : l.Needs) : l.Holds := by
  cases l <;> first | exact h | trivial

def taken : Line F → Bool
  | del _ => true
  | _ => false

end Line

namespace FrameBuffer

structure Sound (b : FrameBuffer τ F) : Prop where
  lock : ∀ t, (b.line t).Holds ↔ b.lock = some t
  queue : ∀ t, (b.line t).Needs → b.queue ≠ []
  raised : ∀ t, b.line t ≠ .raised

def waiting (b : FrameBuffer τ F) : List F :=
  if b.lock.elim false fun t => (b.line t).taken then b.queue.tail else b.queue

variable {b b' : FrameBuffer τ F} {t : τ} {l : Line F}

@[simp] theorem line_goto (b : FrameBuffer τ F) (t t' : τ) (l : Line F) :
    (b.goto t l).line t' = if t' = t then l else b.line t' :=
  Function.update_apply b.line t l t'

@[simp] theorem queue_goto (b : FrameBuffer τ F) (t : τ) (l : Line F) :
    (b.goto t l).queue = b.queue := rfl

@[simp] theorem lock_goto (b : FrameBuffer τ F) (t : τ) (l : Line F) :
    (b.goto t l).lock = b.lock := rfl

theorem Sound.goto (h : b.Sound) (hline : b'.line = b.line)
    (hlock : ∀ t', b'.lock = some t' ↔ if t' = t then l.Holds else b.lock = some t')
    (hqueue : ∀ t' ≠ t, (b.line t').Needs → b'.queue ≠ []) (hneeds : l.Needs → b'.queue ≠ [])
    (hraised : l ≠ .raised) : (b'.goto t l).Sound := by
  constructor
  · intro t'
    rw [line_goto, lock_goto, hlock t', hline]
    split_ifs
    · exact Iff.rfl
    · exact h.lock t'
  · intro t'
    rw [line_goto, queue_goto, hline]
    split_ifs with ht
    · exact hneeds
    · exact hqueue t' ht
  · intro t'
    rw [line_goto, hline]
    split_ifs
    · exact hraised
    · exact h.raised t'

theorem Sound.goto_of_holds (h : b.Sound) (hline : b'.line = b.line) (hlock : b'.lock = b.lock)
    (hholds : l.Holds ↔ (b.line t).Holds) (hqueue : b.queue ≠ [] → b'.queue ≠ [])
    (hneeds : l.Needs → b'.queue ≠ []) (hraised : l ≠ .raised) : (b'.goto t l).Sound := by
  apply h.goto hline
  · intro t'
    rw [hlock]
    split_ifs with ht
    · rw [ht, hholds]
      exact (h.lock t).symm
    · rfl
  · exact fun t' _ hn => hqueue (h.queue t' hn)
  · exact hneeds
  · exact hraised

omit [DecidableEq τ] in
theorem Sound.eq_of_needs (h : b.Sound) (ht : b.lock = some t) {t' : τ} (hn : (b.line t').Needs) :
    t' = t := by
  have hlock := (h.lock t').mp hn.holds
  rw [ht, Option.some.injEq] at hlock
  exact hlock.symm

theorem Sound.release (h : b.Sound) (ht : b.lock = some t) (hl : ¬l.Holds) (hraised : l ≠ .raised) :
    ({ b with lock := none }.goto t l).Sound := by
  apply h.goto
  · rfl
  · intro t'
    split_ifs with heq
    · simp [hl]
    · simp [ht, Ne.symm heq]
  · exact fun t' hne hn => absurd (h.eq_of_needs ht hn) hne
  · exact fun hn => absurd hn.holds hl
  · exact hraised

theorem exec_sound (t : τ) (accepts : Bool) (h : b.Sound) : (b.exec t accepts).Sound := by
  have hneeds := h.queue t
  have hlock := h.lock t
  rw [exec]
  cases hline : b.line t with
  | idle => exact h
  | raised => exact h
  | append frame =>
    apply h.goto_of_holds <;> simp [hline, Line.Holds, Line.Needs]
  | replace frame =>
    apply h.goto_of_holds <;> simp [hline, Line.Holds, Line.Needs]
  | generate done =>
    apply h.goto_of_holds <;> simp [hline, Line.Holds, Line.Needs]
  | breakIfEmpty done =>
    cases hqueue : b.queue.isEmpty <;>
      apply h.goto_of_holds <;> simp [hline, Line.Holds, Line.Needs]
  | acquire done =>
    cases hfree : b.lock with
    | some t' => exact h
    | none =>
      apply h.goto <;> simp [Line.Holds, Line.Needs, hfree, eq_comm]
      exact fun t' _ => h.queue t'
  | whileQueue done =>
    cases hqueue : b.queue <;>
      apply h.goto_of_holds <;> simp [hline, hqueue, Line.Holds, Line.Needs]
  | next done =>
    rw [hline] at hneeds
    cases hqueue : b.queue with
    | nil => exact absurd hqueue (hneeds trivial)
    | cons next rest => apply h.goto_of_holds <;> simp [hline, hqueue, Line.Holds, Line.Needs]
  | pass next done =>
    rw [hline] at hneeds
    have hqueue := hneeds trivial
    cases accepts <;> apply h.goto_of_holds <;> simp [hline, hqueue, Line.Holds, Line.Needs]
  | del done =>
    rw [hline] at hneeds hlock
    cases hqueue : b.queue with
    | nil => exact absurd hqueue (hneeds trivial)
    | cons next rest =>
      have ht := hlock.mp trivial
      apply h.goto
      · rfl
      · intro t'
        split_ifs with heq
        · rw [heq]
          exact iff_of_true ht trivial
        · rfl
      · exact fun t' hne hn => absurd (h.eq_of_needs ht hn) hne
      · exact False.elim
      · simp
  | release again done =>
    rw [hline] at hlock
    have ht := hlock.mp trivial
    cases again <;> apply h.release ht <;> simp [Line.Holds]
  | setFront done =>
    cases done <;> apply h.goto_of_holds <;> simp [hline, Line.Holds, Line.Needs]

theorem step_sound (e : Event τ F) (h : b.Sound) : (b.step e).Sound := by
  cases e with
  | exec t accepts => exact exec_sound t accepts h
  | call t c =>
    rw [step]
    split
    · rename_i hline
      cases c <;> apply h.goto_of_holds <;> simp [hline, Call.line, Line.Holds, Line.Needs]
    · exact h

omit [DecidableEq τ] in
theorem init_sound (queue : List F) (front : F) : (init queue front : FrameBuffer τ F).Sound :=
  ⟨fun _ => iff_of_false id (fun h => nomatch h), fun _ h => h.elim, fun _ h => nomatch h⟩

structure Orderly (b : FrameBuffer τ F) : Prop where
  sound : b.Sound
  replace : ∀ t frame, b.line t ≠ .replace frame
  pass : ∀ t next done, b.line t = .pass next done → b.queue.head? = some next
  kept : b.accepted ++ b.waiting = b.appended

omit [DecidableEq τ] in
theorem waiting_of_lock (ht : b.lock = some t) :
    b.waiting = if (b.line t).taken then b.queue.tail else b.queue := by
  rw [waiting, ht]
  rfl

theorem waiting_goto_owner (ht : b.lock = some t) :
    (b.goto t l).waiting = if l.taken then b.queue.tail else b.queue := by
  have hlock : (b.goto t l).lock = some t := ht
  rw [waiting_of_lock hlock, line_goto, if_pos rfl]
  rfl

theorem waiting_goto (hline : b'.line = b.line) (hlock : b'.lock = b.lock)
    (hl : l.taken = (b.line t).taken) :
    (b'.goto t l).waiting =
      if b.lock.elim false fun t => (b.line t).taken then b'.queue.tail else b'.queue := by
  have htaken : (b'.lock.elim false fun t' => ((b'.goto t l).line t').taken) =
      b.lock.elim false fun t' => (b.line t').taken := by
    rw [hlock]
    cases b.lock with
    | none => rfl
    | some t' =>
      simp only [Option.elim_some, line_goto, hline]
      split_ifs with ht
      · rw [ht, hl]
      · rfl
  rw [waiting, lock_goto, queue_goto, htaken]

theorem Orderly.goto (h : b.Orderly) (hsound : (b'.goto t l).Sound) (hline : b'.line = b.line)
    (hreplace : ∀ frame, l ≠ .replace frame)
    (hpass : ∀ next done, l = .pass next done → b'.queue.head? = some next)
    (hhead : ∀ t' ≠ t, (b.line t').Needs → b'.queue.head? = b.queue.head?)
    (hkept : b'.accepted ++ (b'.goto t l).waiting = b'.appended) : (b'.goto t l).Orderly := by
  refine ⟨hsound, ?_, ?_, hkept⟩
  · intro t'
    rw [line_goto, hline]
    split_ifs
    · exact hreplace
    · exact h.replace t'
  · intro t' next done
    rw [line_goto, queue_goto, hline]
    split_ifs with ht
    · exact hpass next done
    · intro hl
      rw [hhead t' ht (by rw [hl]; trivial)]
      exact h.pass t' next done hl

theorem Orderly.goto_of_eq (h : b.Orderly) (hsound : (b.goto t l).Sound)
    (hl : l.taken = (b.line t).taken) (hreplace : ∀ frame, l ≠ .replace frame)
    (hpass : ∀ next done, l = .pass next done → b.queue.head? = some next) :
    (b.goto t l).Orderly := by
  apply h.goto hsound rfl hreplace hpass (fun _ _ _ => rfl)
  have hkept := h.kept
  rw [waiting] at hkept
  rw [waiting_goto rfl rfl hl]
  exact hkept

omit [DecidableEq τ] in
theorem Orderly.front (h : b.Orderly) (front : F) : ({ b with front := front }).Orderly :=
  ⟨⟨h.sound.lock, h.sound.queue, h.sound.raised⟩, h.replace, h.pass, h.kept⟩

omit [DecidableEq τ] in
theorem Orderly.queue_of_taken (h : b.Orderly)
    (htaken : (b.lock.elim false fun t => (b.line t).taken) = true) : b.queue ≠ [] := by
  cases hlock : b.lock with
  | none =>
    rw [hlock] at htaken
    cases htaken
  | some t =>
    rw [hlock, Option.elim_some] at htaken
    apply h.sound.queue t
    cases hline : b.line t <;> simp [hline, Line.taken, Line.Needs] at htaken ⊢

theorem exec_orderly (t : τ) (accepts : Bool) (h : b.Orderly) : (b.exec t accepts).Orderly := by
  have hsound := exec_sound t accepts h.sound
  have hlock := h.sound.lock t
  have hneeds := h.sound.queue t
  have hkept := h.kept
  rw [exec] at hsound ⊢
  cases hline : b.line t with
  | idle => exact h
  | raised => exact h
  | append frame =>
    rw [hline] at hsound
    apply h.goto hsound rfl (fun _ => by simp) (fun _ _ => by simp)
    · intro t' _ hn
      obtain ⟨next, rest, hqueue⟩ := List.exists_cons_of_ne_nil (h.sound.queue t' hn)
      change (b.queue ++ [frame]).head? = _
      rw [hqueue]
      rfl
    · rw [waiting_goto rfl rfl (by rw [hline]; rfl)]
      rw [waiting] at hkept
      change b.accepted ++ (if _ then (b.queue ++ [frame]).tail else b.queue ++ [frame]) =
        b.appended ++ [frame]
      rw [← hkept, List.append_assoc]
      split_ifs with htaken
      · rw [List.tail_append_of_ne_nil (h.queue_of_taken htaken)]
      · rfl
  | replace frame => exact absurd hline (h.replace t frame)
  | generate done =>
    rw [hline] at hsound
    apply h.goto_of_eq hsound <;> simp [hline, Line.taken]
  | breakIfEmpty done =>
    rw [hline] at hsound
    cases hqueue : b.queue.isEmpty <;> rw [hqueue] at hsound <;>
      apply h.goto_of_eq hsound <;> simp [hline, Line.taken]
  | acquire done =>
    rw [hline] at hsound
    cases hfree : b.lock with
    | some t' => exact h
    | none =>
      rw [hfree] at hsound
      apply h.goto hsound rfl (fun _ => by simp) (fun _ _ => by simp) (fun _ _ _ => rfl)
      rw [waiting, hfree] at hkept
      rw [waiting_goto_owner rfl]
      exact hkept
  | whileQueue done =>
    rw [hline] at hsound
    cases hqueue : b.queue <;> rw [hqueue] at hsound <;>
      apply h.goto_of_eq hsound <;> simp [hline, Line.taken]
  | next done =>
    rw [hline] at hsound hneeds
    cases hqueue : b.queue with
    | nil => exact absurd hqueue (hneeds trivial)
    | cons next rest =>
      rw [hqueue] at hsound
      apply h.goto_of_eq hsound <;> simp [hline, hqueue, Line.taken]
  | pass next done =>
    rw [hline] at hsound hlock
    have ht := hlock.mp trivial
    have hhead := h.pass t next done hline
    cases accepts with
    | false => apply h.goto_of_eq hsound <;> simp [hline, Line.taken]
    | true =>
      apply h.goto hsound rfl (fun _ => by simp) (fun _ _ => by simp) (fun _ _ _ => rfl)
      obtain ⟨rest, hqueue⟩ : ∃ rest, b.queue = next :: rest := List.head?_eq_some_iff.mp hhead
      rw [waiting_of_lock ht, hline, hqueue] at hkept
      rw [waiting_goto_owner (by exact ht), ← hkept]
      change b.accepted ++ [next] ++ b.queue.tail = b.accepted ++ next :: rest
      rw [hqueue, List.append_assoc]
      rfl
  | del done =>
    rw [hline] at hsound hlock hneeds
    have ht := hlock.mp trivial
    cases hqueue : b.queue with
    | nil => exact absurd hqueue (hneeds trivial)
    | cons next rest =>
      rw [hqueue] at hsound
      apply h.goto hsound rfl (fun _ => by simp) (fun _ _ => by simp)
      · exact fun t' hne hn => absurd (h.sound.eq_of_needs ht hn) hne
      · rw [waiting_of_lock ht, hline, hqueue] at hkept
        rw [waiting_goto_owner (by exact ht)]
        exact hkept
  | release again done =>
    rw [hline] at hsound hlock
    have ht := hlock.mp trivial
    rw [waiting_of_lock ht, hline] at hkept
    cases again <;>
    · apply h.goto hsound rfl (fun _ => by simp) (fun _ _ => by simp) (fun _ _ _ => rfl)
      exact hkept
  | setFront done =>
    rw [hline] at hsound
    cases done with
    | none => apply h.goto_of_eq hsound <;> simp [hline, Line.taken]
    | some frame => apply (h.front frame).goto_of_eq hsound <;> simp [hline, Line.taken]

def Event.Replaces : Event τ F → Prop
  | .call _ (.replace _) => True
  | _ => False

theorem step_orderly {e : Event τ F} (he : ¬e.Replaces) (h : b.Orderly) : (b.step e).Orderly := by
  have hsound := step_sound e h.sound
  cases e with
  | exec t accepts => exact exec_orderly t accepts h
  | call t c =>
    rw [step] at hsound ⊢
    split at hsound
    · rename_i hline
      cases c with
      | append frame => apply h.goto_of_eq hsound <;> simp [hline, Call.line, Line.taken]
      | replace frame => exact absurd trivial he
      | queueCompletionCb frame => apply h.goto_of_eq hsound <;> simp [hline, Call.line, Line.taken]
    · exact h

omit [DecidableEq τ] in
theorem init_orderly (queue : List F) (front : F) :
    (init queue front : FrameBuffer τ F).Orderly :=
  ⟨init_sound queue front, fun _ _ h => (nomatch h), fun _ _ _ h => (nomatch h), rfl⟩

/-- What the remote queue has accepted and then what is in the local queue is all that was
appended, where a frame that is moved from the one to the other counts once. -/
structure InOrder (b : FrameBuffer τ F) : Prop where
  between : (∀ t done, b.line t ≠ .del done) → b.accepted ++ b.queue = b.appended
  moving : ∀ t done, b.line t = .del done → b.accepted ++ b.queue.tail = b.appended

omit [DecidableEq τ] in
theorem Orderly.inOrder (h : b.Orderly) : b.InOrder := by
  have hkept := h.kept
  constructor
  · intro hnone
    cases hlock : b.lock with
    | none =>
      rw [waiting, hlock] at hkept
      exact hkept
    | some t =>
      rw [waiting_of_lock hlock] at hkept
      have hne := hnone t
      cases hline : b.line t with
      | del done => exact absurd hline (hne done)
      | _ =>
        rw [hline] at hkept
        exact hkept
  · intro t done hline
    have hlock := h.sound.lock t
    rw [hline] at hlock
    rw [waiting_of_lock (hlock.mp trivial), hline] at hkept
    exact hkept

def Puts (b : FrameBuffer τ F) : Event τ F → Prop
  | .exec t _ => ∃ frame, b.line t = .append frame ∨ b.line t = .replace frame
  | .call _ _ => False

theorem step_queue {e : Event τ F} (he : ¬b.Puts e) :
    (b.step e).queue = b.queue ∨ (b.step e).queue = b.queue.tail := by
  cases e with
  | call t c =>
    rw [step]
    split <;> exact Or.inl rfl
  | exec t accepts =>
    rw [step, exec]
    cases hline : b.line t with
    | append frame => exact absurd ⟨frame, Or.inl hline⟩ he
    | replace frame => exact absurd ⟨frame, Or.inr hline⟩ he
    | acquire done => cases b.lock <;> exact Or.inl rfl
    | next done => cases hqueue : b.queue <;> exact Or.inl hqueue
    | pass next done => cases accepts <;> exact Or.inl rfl
    | del done =>
      cases hqueue : b.queue with
      | nil => exact Or.inl hqueue
      | cons next rest => exact Or.inr rfl
    | setFront done => cases done <;> exact Or.inl rfl
    | _ => exact Or.inl rfl

theorem replaced {frame : F} {events : List (Event τ F)} (h : b.queue = [] ∨ b.queue = [frame])
    (hevents : Meets step (fun b e => ¬b.Puts e) b events) :
    Always step (fun b => b.queue = [] ∨ b.queue = [frame]) b events := by
  refine hevents.always (P := fun b => b.queue = [] ∨ b.queue = [frame]) (fun b e hb he => ?_) h
  rcases step_queue he with hqueue | hqueue
  · rwa [hqueue]
  · rw [hqueue]
    rcases hb with hb | hb
    · exact Or.inl (congrArg List.tail hb)
    · exact Or.inl (congrArg List.tail hb)

end FrameBuffer

end NaviMisc.LaserProp
