/-
What the loop that writes snapshots leaves behind.

What stands at the path at any moment is the snapshot of the latest dump that succeeded, and the
loop ends with a last attempt, which begins after it was told to stop and is the last thing that it
does (`DumpLoop.State.leaves_current`).

What every run keeps is told in two parts: of the file and of the order of the attempts
(`DumpLoop.State.Sound`), and of the events that an attempt goes back to
(`DumpLoop.State.Traced`).  That the loop comes to its end is told by the steps that are still to
come of the dump that goes on, of which every step of it takes one.

A loop that is over does nothing any more, and one that is not has had no last attempt.  Between
two attempts nothing changes the store but others, and the file at the path stays unless a dump
ends there with its snapshot moved.  An attempt that is over was under way before, so where it began
and what it has read are kept from its first step on.
-/
import Telemetry.Proofs.Store.Dumping

namespace Telemetry.DumpLoop.State

variable {path : String} {origin : Disk} {s t : State} {e : Event} {phase : Loop.Phase}
  {attempts : List Attempt}

/-! ## What every run keeps -/

/-- One of several attempts is the last of them or one of those before it. -/
theorem split_concat {earlier later : List Attempt} {a b : Attempt}
    (h : attempts ++ [b] = earlier ++ a :: later) :
    (later = [] ∧ attempts = earlier ∧ b = a) ∨ ∃ middle, attempts = earlier ++ a :: middle := by
  rcases List.eq_nil_or_concat later with rfl | ⟨middle, c, rfl⟩
  · obtain ⟨hattempts, hlast⟩ := List.append_inj' h rfl
    exact .inl ⟨rfl, hattempts, List.singleton_inj.mp hlast⟩
  · rw [List.concat_eq_append, ← List.cons_append, ← List.append_assoc] at h
    exact .inr ⟨middle, (List.append_inj' h rfl).1⟩

/-- The attempts of a loop: only the one that ended it was the last one. -/
inductive Log (s : State) : List Attempt → Prop
  | open {attempts : List Attempt} : ¬s.IsOver → (∀ a ∈ attempts, a.last = false) → Log s attempts
  | closed {earlier : List Attempt} {a : Attempt} : s.IsOver → (∀ b ∈ earlier, b.last = false) →
      a.last = true → Log s (earlier ++ [a])

namespace Log

theorem keep (h : Log s attempts) (hover : t.IsOver ↔ s.IsOver) : Log t attempts := by
  cases h with
  | «open» hgoing hearlier => exact .open (hover.not.mpr hgoing) hearlier
  | closed hs hearlier hlast => exact .closed (hover.mpr hs) hearlier hlast

theorem last_eq_false (h : Log s attempts) (hs : ¬s.IsOver) : ∀ a ∈ attempts, a.last = false := by
  cases h with
  | «open» _ hearlier => exact hearlier
  | closed hover => exact absurd hover hs

theorem finish (h : Log s attempts) (hs : ¬s.IsOver) (ht : t.dumping = none)
    (outcome : Result Holdings) : Log t (attempts ++ [⟨t.phase = .ended, outcome⟩]) := by
  by_cases hended : t.phase = .ended
  · exact .closed ⟨hended, ht⟩ (h.last_eq_false hs) (decide_eq_true hended)
  · refine .open (fun hover => hended hover.1) fun a ha => ?_
    rcases List.mem_append.mp ha with ha | ha
    · exact h.last_eq_false hs a ha
    · rw [List.mem_singleton.mp ha]
      exact decide_eq_false hended

end Log

theorem Begins.not_isOver (h : Begins s e phase) : ¬s.IsOver := by
  cases h with
  | periodic _ hphase => exact fun hover => nomatch hphase.symm.trans hover.1
  | last _ _ hphase => exact fun hover => hphase hover.1

theorem not_isOver_of_dumping {stage : Dumping} (h : s.dumping = some stage) : ¬s.IsOver :=
  fun hover => nomatch h.symm.trans hover.2

/-- What every run of a loop keeps. -/
structure Sound (path : String) (origin : Disk) (events : List Event) (s : State)
    (attempts : List Attempt) : Prop where
  told : s.told = true ↔ .cancel ∈ events
  ended : s.phase = .ended → s.told = true
  log : Log s attempts
  placed : Dumped.Placed path origin (latest attempts) s.disk
  beside : ∀ stage, s.dumping = some stage → stage.Beside path origin s.disk

theorem sound_start (path : String) (store : Store) (d : Disk) :
    Sound path d [] (start store d) [] where
  told := ⟨nofun, nofun⟩
  ended := nofun
  log := .open (fun hover => nomatch hover.1) nofun
  placed := .start path d
  beside := nofun

namespace Does

variable {attempt : Option Attempt}

theorem told (h : Does path origin s e t attempt) :
    t.told = true ↔ s.told = true ∨ e = .cancel := by
  cases h with
  | hears => exact iff_of_true rfl (.inr rfl)
  | begins hbegins | refused hbegins => cases hbegins <;> simp
  | changes | passes | waits | works | rests | goesOn | ends => simp

theorem store (h : Does path origin s e t attempt) (he : ∀ change, e ≠ .outside change) :
    t.store = s.store := by
  cases h with
  | changes change => exact absurd rfl (he change)
  | hears | passes | waits | works | rests | begins | refused | goesOn | ends => rfl

theorem ended (h : Does path origin s e t attempt) (hended : t.phase = .ended) :
    s.phase = .ended ∨ s.told = true := by
  cases h with
  | changes | hears | waits | works | rests | goesOn | ends => exact .inl hended
  | passes => cases hended
  | begins hbegins | refused hbegins =>
      cases hbegins with
      | periodic => cases hended
      | last _ htold => exact .inr htold

theorem log (h : Does path origin s e t attempt) (hs : Log s attempts) :
    Log t (attempts ++ attempt.toList) := by
  cases h with
  | changes | hears | waits | works | rests =>
      rw [Option.toList_none, List.append_nil]
      exact hs.keep Iff.rfl
  | passes _ hphase =>
      rw [Option.toList_none, List.append_nil]
      exact hs.keep (iff_of_false (fun hover => nomatch hover.1)
        fun hover => nomatch hphase.symm.trans hover.1)
  | begins hbegins =>
      rw [Option.toList_none, List.append_nil]
      exact hs.keep (iff_of_false (not_isOver_of_dumping rfl) hbegins.not_isOver)
  | refused hbegins => exact hs.finish hbegins.not_isOver rfl _
  | goesOn hstage =>
      rw [Option.toList_none, List.append_nil]
      exact hs.keep (iff_of_false (not_isOver_of_dumping rfl) (not_isOver_of_dumping hstage))
  | ends hstage => exact hs.finish (not_isOver_of_dumping hstage) rfl _

/-- The file at the path stays, unless a dump ends there with its snapshot moved. -/
theorem placed (h : Does path origin s e t attempt)
    (hplaced : Dumped.Placed path origin (latest attempts) s.disk)
    (hbeside : ∀ stage, s.dumping = some stage → stage.Beside path origin s.disk) :
    Dumped.Placed path origin (latest (attempts ++ attempt.toList)) t.disk := by
  cases h with
  | changes | hears | passes | waits | works | rests | begins =>
      rw [Option.toList_none, List.append_nil]
      exact hplaced
  | refused =>
      rw [Option.toList_some, latest_concat_error rfl]
      exact hplaced
  | goesOn _ hgoes =>
      rw [Option.toList_none, List.append_nil]
      cases hgoes with
      | stays _ hkeeps | prepares hkeeps | writes hkeeps => exact hplaced.keep hkeeps
      | reads => exact hplaced
  | ends hstage hgoes =>
      cases hgoes with
      | fails hkeeps =>
          rw [Option.toList_some, latest_concat_error rfl]
          exact hplaced.keep hkeeps
      | moves hmove =>
          rw [Option.toList_some, latest_concat_ok rfl]
          -- Nothing has touched what was written beside the path.
          exact hplaced.move (hbeside _ hstage) hmove

theorem beside (h : Does path origin s e t attempt)
    (hbeside : ∀ stage, s.dumping = some stage → stage.Beside path origin s.disk) :
    ∀ stage, t.dumping = some stage → stage.Beside path origin t.disk := by
  cases h with
  | changes | hears | passes | waits | works | rests => exact hbeside
  | begins =>
      rintro _ ⟨⟩
      exact trivial
  | refused | ends => exact nofun
  | goesOn hstage hgoes =>
      rintro _ ⟨⟩
      cases hgoes with
      | stays _ _ hkept => exact hkept (hbeside _ hstage)
      | reads | prepares => exact trivial
      | writes _ hwritten => exact hwritten

/-- A loop that waits and was told to stop has ended when it has noticed. -/
theorem ended_of_notice (h : Does path origin s .notice t attempt) (hidle : s.dumping = none)
    (htold : s.told = true) : t.phase = .ended := by
  cases h with
  | works hended => exact hended hidle htold
  | begins hbegins | refused hbegins =>
      cases hbegins with
      | last => rfl

theorem of_isOver (h : Does path origin s e t attempt) (hs : s.IsOver) :
    t.IsOver ∧ attempt = none ∧ t.disk = s.disk := by
  cases h with
  | changes | hears | waits | works | rests => exact ⟨hs, rfl, rfl⟩
  | passes _ hphase => exact nomatch hphase.symm.trans hs.1
  | begins hbegins | refused hbegins => exact absurd hs hbegins.not_isOver
  | goesOn hstage | ends hstage => exact absurd hs (not_isOver_of_dumping hstage)

end Does

theorem sound_step {events : List Event} (h : Sound path origin events s attempts) (e : Event) :
    Sound path origin (events ++ [e]) (s.step path e).1
      (attempts ++ (s.step path e).2.toList) := by
  have hdoes := does_step path h.placed.current e
  have htold : (s.step path e).1.told = true ↔ .cancel ∈ events ++ [e] := by
    rw [hdoes.told, h.told, List.mem_append, List.mem_singleton, eq_comm (a := e)]
  refine ⟨htold, fun hended => ?_, hdoes.log h.log, hdoes.placed h.placed h.beside,
    hdoes.beside h.beside⟩
  exact hdoes.told.mpr (.inl ((hdoes.ended hended).elim h.ended id))

theorem sound_run (path : String) (store : Store) (d : Disk) (events : List Event) :
    Sound path d events ((start store d).run path events).1
      ((start store d).run path events).2 :=
  run_induction path (start store d) (sound_start path store d) (fun _ e h => sound_step h e) events

/-! ## Where attempts come from -/

/-- A dump that begins with an event after others captures the counters that are held then, and
the gauges that are held when it reads them. -/
def Captures (path : String) (s : State) (before : List Event) (e : Event) (rest : List Event)
    (k : Holdings) : Prop :=
  ∃ during after, rest = during ++ .dump .readGauges :: after ∧ .dump .readGauges ∉ during ∧
    k = ⟨(s.run path before).1.store.held.counters,
      (s.run path (before ++ e :: during)).1.store.held.gauges⟩

/-- An attempt that comes after others was begun by one of the events. -/
def CameAbout (path : String) (s : State) (events : List Event) (earlier : List Attempt)
    (a : Attempt) : Prop :=
  ∃ before e rest, events = before ++ e :: rest ∧ (s.run path before).2 = earlier ∧
    Begins (s.run path before).1 e (if a.last then .ended else .running) ∧
    ∀ k, a.outcome = .ok k → Captures path s before e rest k

theorem Captures.append {before rest : List Event} {k : Holdings}
    (h : Captures path s before e rest k) (more : List Event) :
    Captures path s before e (rest ++ more) k := by
  obtain ⟨during, after, rfl, hduring, hk⟩ := h
  exact ⟨during, after ++ more, by rw [List.append_assoc, List.cons_append], hduring, hk⟩

theorem CameAbout.append {events : List Event} {earlier : List Attempt} {a : Attempt}
    (h : CameAbout path s events earlier a) (more : List Event) :
    CameAbout path s (events ++ more) earlier a := by
  obtain ⟨before, e, rest, rfl, hearlier, hbegins, hcaptures⟩ := h
  refine ⟨before, e, rest ++ more, by rw [List.append_assoc, List.cons_append], hearlier,
    hbegins, fun k hk => (hcaptures k hk).append more⟩

/-- A dump that goes on was begun by one of the events, and the others came after it. -/
structure UnderWay (path : String) (s : State) (events : List Event) (t : State)
    (attempts : List Attempt) (stage : Dumping) (before : List Event) (e : Event)
    (during : List Event) : Prop where
  events : events = before ++ e :: during
  attempts : (s.run path before).2 = attempts
  begins : Begins (s.run path before).1 e t.phase
  counters : stage.counters = (s.run path before).1.store.held.counters
  unread : stage.state? = none → .dump .readGauges ∉ during
  captures : ∀ k, stage.state? = some k → Captures path s before e during k

theorem UnderWay.goOn {events before during : List Event} {x : Event} {stage next : Dumping}
    (h : UnderWay path s events t attempts stage before x during) {u : State}
    (hphase : u.phase = t.phase) (hcounters : next.counters = stage.counters)
    (hstate : next.state? = stage.state?) (he : stage.state? = none → e ≠ .dump .readGauges) :
    UnderWay path s (events ++ [e]) u attempts next before x (during ++ [e]) where
  events := by rw [h.events, List.append_assoc, List.cons_append]
  attempts := h.attempts
  begins := hphase ▸ h.begins
  counters := hcounters.trans h.counters
  unread hnone := by
    rw [hstate] at hnone
    rw [List.mem_append, List.mem_singleton, not_or]
    exact ⟨h.unread hnone, (he hnone).symm⟩
  captures k hk := (h.captures k (hstate ▸ hk)).append [e]

theorem UnderWay.read {events before during : List Event} {x : Event} {first : Holdings}
    (h : UnderWay path s events (s.run path events).1 attempts (.counted first) before x during)
    {u : State} (hphase : u.phase = (s.run path events).1.phase) :
    UnderWay path s (events ++ [.dump .readGauges]) u attempts
      (.captured ⟨first.counters, (s.run path events).1.store.held.gauges⟩) before x
      (during ++ [.dump .readGauges]) where
  events := by rw [h.events, List.append_assoc, List.cons_append]
  attempts := h.attempts
  begins := hphase ▸ h.begins
  counters := h.counters
  unread := nofun
  captures := by
    rintro _ ⟨⟩
    refine ⟨during, [], rfl, h.unread rfl, ?_⟩
    rw [← h.events, ← h.counters]
    rfl

theorem UnderWay.cameAbout {events before during : List Event} {x : Event} {stage : Dumping}
    (h : UnderWay path s events t attempts stage before x during) (e : Event)
    {outcome : Result Holdings} (houtcome : ∀ k, outcome = .ok k → stage.state? = some k) :
    CameAbout path s (events ++ [e]) attempts ⟨t.phase = .ended, outcome⟩ := by
  refine ⟨before, x, during ++ [e], ?_, h.attempts, ?_, fun k hk => ?_⟩
  · rw [h.events, List.append_assoc, List.cons_append]
  · have hbegins := h.begins
    cases hphase : t.phase with
    | starting =>
        rw [hphase] at hbegins
        cases hbegins
    | running | ended =>
        rw [hphase] at hbegins
        exact hbegins
  · exact (h.captures k (houtcome k hk)).append [e]

/-- What every run keeps of its past. -/
structure Traced (path : String) (s : State) (events : List Event) (t : State)
    (attempts : List Attempt) : Prop where
  underWay : ∀ stage, t.dumping = some stage → ∃ before e during,
    UnderWay path s events t attempts stage before e during
  cameAbout : ∀ earlier a later, attempts = earlier ++ a :: later →
    CameAbout path s events earlier a

theorem cameAbout_concat {events : List Event} {attempts : List Attempt} {attempt : Option Attempt}
    (h : ∀ earlier a later, attempts = earlier ++ a :: later → CameAbout path s events earlier a)
    (e : Event)
    (hattempt : ∀ a, attempt = some a → CameAbout path s (events ++ [e]) attempts a) :
    ∀ earlier a later, attempts ++ attempt.toList = earlier ++ a :: later →
      CameAbout path s (events ++ [e]) earlier a := by
  intro earlier a later hsplit
  cases attempt with
  | none =>
      rw [Option.toList_none, List.append_nil] at hsplit
      exact (h earlier a later hsplit).append [e]
  | some last =>
      rcases split_concat hsplit with ⟨-, rfl, rfl⟩ | ⟨middle, hmiddle⟩
      · exact hattempt _ rfl
      · exact (h earlier a middle hmiddle).append [e]

theorem traced_step {events : List Event} {origin : Disk} {attempt : Option Attempt} {u : State}
    (h : Traced path s events (s.run path events).1 (s.run path events).2)
    (hdoes : Does path origin (s.run path events).1 e u attempt) :
    Traced path s (events ++ [e]) u ((s.run path events).2 ++ attempt.toList) := by
  cases hdoes with
  | changes | hears | waits | works =>
      refine ⟨fun stage hstage => ?_, cameAbout_concat h.cameAbout _ nofun⟩
      obtain ⟨before, x, during, hunder⟩ := h.underWay stage hstage
      rw [Option.toList_none, List.append_nil]
      exact ⟨before, x, _, hunder.goOn rfl rfl rfl nofun⟩
  | passes hidle | rests hidle =>
      exact ⟨fun stage hstage => absurd (hidle.symm.trans hstage) nofun,
        cameAbout_concat h.cameAbout _ nofun⟩
  | begins hbegins =>
      refine ⟨?_, cameAbout_concat h.cameAbout _ nofun⟩
      rintro _ ⟨⟩
      rw [Option.toList_none, List.append_nil]
      exact ⟨events, e, [], rfl, rfl, hbegins, rfl, nofun, nofun⟩
  | refused hbegins =>
      refine ⟨nofun, cameAbout_concat h.cameAbout _ ?_⟩
      rintro _ ⟨⟩
      refine ⟨events, e, [], rfl, rfl, ?_, nofun⟩
      cases hbegins with
      | periodic hidle hphase => exact .periodic hidle hphase
      | last hidle htold hphase => exact .last hidle htold hphase
  | @goesOn stage _ _ _ hstage hgoes =>
      refine ⟨?_, cameAbout_concat h.cameAbout _ nofun⟩
      rintro _ ⟨⟩
      obtain ⟨before, x, during, hunder⟩ := h.underWay _ hstage
      rw [Option.toList_none, List.append_nil]
      cases hgoes with
      | stays hst =>
          refine ⟨before, x, _, hunder.goOn rfl rfl rfl fun hnone => ?_⟩
          cases stage with
          | counted => exact fun he => hst (by cases he; rfl)
          | captured | prepared | written => cases hnone
      | reads => exact ⟨before, x, _, hunder.read rfl⟩
      | prepares | writes => exact ⟨before, x, _, hunder.goOn rfl rfl rfl nofun⟩
  | ends hstage hgoes =>
      refine ⟨nofun, cameAbout_concat h.cameAbout _ ?_⟩
      rintro _ ⟨⟩
      obtain ⟨before, x, during, hunder⟩ := h.underWay _ hstage
      refine hunder.cameAbout _ fun k hk => ?_
      cases hgoes with
      | fails => cases hk
      | moves =>
          cases hk
          rfl

theorem traced_run (path : String) (store : Store) (d : Disk) (events : List Event) :
    Traced path (start store d) events ((start store d).run path events).1
      ((start store d).run path events).2 := by
  have hstart : Traced path (start store d) [] (start store d) [] :=
    ⟨nofun, fun earlier a later hsplit =>
      absurd hsplit.symm (List.append_ne_nil_of_right_ne_nil earlier (List.cons_ne_nil a later))⟩
  refine run_induction path (start store d) hstart ?_ events
  intro events e h
  exact traced_step h (does_step path (sound_run path store d events).placed.current e)

/-- As long as others do not change the store, it stays as it is. -/
theorem store_run {events : List Event} (h : ∀ change, .outside change ∉ events) :
    (s.run path events).1.store = s.store := by
  induction events generalizing s with
  | nil => rfl
  | cons e rest ih =>
      have hstore : (s.step path e).1.store = s.store := by
        refine (does_step path rfl e).store fun change he => h change ?_
        rw [he]
        exact List.mem_cons_self
      exact (ih fun change hmem => h change (List.mem_cons_of_mem e hmem)).trans hstore

/-! ## How the loop ends -/

theorem run_of_isOver (hs : s.IsOver) (events : List Event) :
    (s.run path events).1.IsOver ∧ (s.run path events).2 = [] ∧
      (s.run path events).1.disk = s.disk := by
  induction events generalizing s with
  | nil => exact ⟨hs, rfl, rfl⟩
  | cons e rest ih =>
      have hstep : (s.step path e).1.IsOver ∧ (s.step path e).2 = none ∧
          (s.step path e).1.disk = s.disk := (does_step path rfl e).of_isOver hs
      obtain ⟨hover, hnone, hdisk⟩ := hstep
      obtain ⟨hends, hattempts, hrest⟩ := ih hover
      refine ⟨hends, ?_, hrest.trans hdisk⟩
      rw [run]
      simp only [hnone, hattempts, Option.toList_none, List.append_nil]

/-- The steps that are still to come of the dump that goes on. -/
def remaining (s : State) : List Dumping.Step := s.dumping.elim [] Dumping.remaining

/-- In these events a dump comes to its end, and the loop hears of nothing meanwhile. -/
structure Finishes (events : List Event) : Prop where
  tick : .tick ∉ events
  notice : .notice ∉ events
  steps : (Dumping.steps.map Event.dump).Sublist events

theorem remaining_suffix (s : State) : s.remaining <:+ Dumping.steps := by
  cases h : s.dumping with
  | none =>
      rw [remaining, h]
      exact List.nil_suffix
  | some stage =>
      rw [remaining, h]
      cases stage with
      | counted => exact List.suffix_refl _
      | captured => exact ⟨[.readGauges], rfl⟩
      | prepared => exact ⟨[.readGauges, .prepare], rfl⟩
      | written => exact ⟨[.readGauges, .prepare, .write], rfl⟩

theorem Does.remaining {attempt : Option Attempt} (h : Does path origin s e t attempt)
    (htick : e ≠ .tick) (hnotice : e ≠ .notice) :
    t.remaining <:+ s.remaining ∧
      ∀ st rest, e = .dump st → s.remaining = st :: rest → t.remaining <:+ rest := by
  cases h with
  | changes | hears => exact ⟨List.suffix_refl _, nofun⟩
  | passes | waits => exact absurd rfl htick
  | works => exact absurd rfl hnotice
  | rests hidle =>
      refine ⟨List.suffix_refl _, fun st rest _ hcome => ?_⟩
      rw [State.remaining, hidle] at hcome
      cases hcome
  | begins hbegins | refused hbegins =>
      cases hbegins with
      | periodic => exact absurd rfl htick
      | last => exact absurd rfl hnotice
  | goesOn hstage hgoes =>
      rw [State.remaining, State.remaining, hstage]
      cases hgoes with
      | stays hst =>
          refine ⟨List.suffix_refl _, ?_⟩
          rintro _ rest ⟨⟩ hcome
          exact absurd (congrArg List.head? hcome) hst
      | reads | prepares | writes =>
          refine ⟨List.suffix_cons _ _, ?_⟩
          rintro _ _ _ ⟨⟩
          exact List.suffix_refl _
  | ends => exact ⟨List.nil_suffix, fun _ _ _ _ => List.nil_suffix⟩

theorem Does.phase_eq {attempt : Option Attempt} (h : Does path origin s e t attempt)
    (htick : e ≠ .tick) (hnotice : e ≠ .notice) : t.phase = s.phase := by
  cases h with
  | begins hbegins | refused hbegins =>
      cases hbegins with
      | periodic => exact absurd rfl htick
      | last => exact absurd rfl hnotice
  | passes => exact absurd rfl htick
  | changes | hears | waits | works | rests | goesOn | ends => rfl

theorem dumping_of_remaining (h : s.remaining = []) : s.dumping = none := by
  cases hs : s.dumping with
  | none => rfl
  | some stage =>
      rw [remaining, hs] at h
      cases stage <;> cases h

/-- A dump comes to its end when all of its steps are taken, whatever else happens. -/
theorem run_of_finishes (path : String) (s : State) {events : List Event} (h : Finishes events) :
    (s.run path events).1.dumping = none ∧ (s.run path events).1.phase = s.phase ∧
      (s.told = true → (s.run path events).1.told = true) := by
  have hsteps : (s.remaining.map Event.dump).Sublist events :=
    (s.remaining_suffix.sublist.map Event.dump).trans h.steps
  obtain ⟨htick, hnotice, -⟩ := h
  induction events generalizing s with
  | nil =>
      exact ⟨dumping_of_remaining (List.map_eq_nil_iff.mp (List.sublist_nil.mp hsteps)), rfl, id⟩
  | cons e rest ih =>
      have hdoes := does_step path (s := s) rfl e
      have htick' : e ≠ .tick := fun he => htick (he ▸ List.mem_cons_self)
      have hnotice' : e ≠ .notice := fun he => hnotice (he ▸ List.mem_cons_self)
      obtain ⟨hstays, hleads⟩ := hdoes.remaining htick' hnotice'
      have hrest : ((s.step path e).1.remaining.map Event.dump).Sublist rest := by
        cases hcome : s.remaining with
        | nil =>
            rw [hcome] at hstays
            rw [List.suffix_nil.mp hstays]
            exact List.nil_sublist rest
        | cons st later =>
            rw [hcome] at hsteps
            rcases List.sublist_cons_iff.mp hsteps with hsteps | ⟨_, hhead, hsteps⟩
            · rw [← hcome] at hsteps
              exact (hstays.sublist.map Event.dump).trans hsteps
            · cases hhead
              exact ((hleads st later rfl hcome).sublist.map Event.dump).trans hsteps
      obtain ⟨hends, hphase, htold⟩ := ih _ hrest (fun hmem => htick (List.mem_cons_of_mem e hmem))
        fun hmem => hnotice (List.mem_cons_of_mem e hmem)
      exact ⟨hends, hphase.trans (hdoes.phase_eq htick' hnotice'),
        fun hs => htold (hdoes.told.mpr (.inl hs))⟩

/-- A loop that was told to stop does so when it has finished its dump, has noticed, and has
finished the dump that it takes its leave with. -/
theorem isOver_of_told (hs : s.told = true) {first second : List Event} (hfirst : Finishes first)
    (hsecond : Finishes second) : (s.run path (first ++ .notice :: second)).1.IsOver := by
  obtain ⟨hidle, -, htold⟩ := s.run_of_finishes path hfirst
  rw [run_append]
  have hended : (((s.run path first).1.step path .notice).1).phase = .ended :=
    (does_step path rfl .notice).ended_of_notice hidle (htold hs)
  obtain ⟨hends, hphase, -⟩ :=
    run_of_finishes path ((s.run path first).1.step path .notice).1 hsecond
  exact ⟨hphase.trans hended, hends⟩

theorem Log.last_of_isOver (h : Log s attempts) (hs : s.IsOver) :
    ∃ earlier a, attempts = earlier ++ [a] ∧ a.last = true := by
  cases h with
  | «open» hgoing => exact absurd hs hgoing
  | closed _ _ hlast => exact ⟨_, _, rfl, hlast⟩

theorem Log.isOver_of_last {earlier later : List Attempt} {a : Attempt}
    (h : Log s (earlier ++ a :: later)) (ha : a.last = true) : later = [] ∧ s.IsOver := by
  generalize hsplit : earlier ++ a :: later = attempts at h
  cases h with
  | «open» _ hnone =>
      have hmem : a ∈ attempts := hsplit ▸ List.mem_append_right earlier List.mem_cons_self
      exact nomatch ha.symm.trans (hnone a hmem)
  | @closed before b hover hnone _ =>
      refine ⟨?_, hover⟩
      rcases split_concat hsplit.symm with ⟨hlater, -, -⟩ | ⟨middle, rfl⟩
      · exact hlater
      · exact nomatch ha.symm.trans (hnone a (List.mem_append_right earlier List.mem_cons_self))

/-- A dump captures what is held when it begins, unless others change the store before it reads the
gauges. -/
theorem Captures.eq_held {before rest during after : List Event} {k : Holdings}
    (h : Captures path s before e rest k) (he : Begins (s.run path before).1 e phase)
    (hread : rest = during ++ .dump .readGauges :: after)
    (hduring : ∀ change, .outside change ∉ during) : k = (s.run path before).1.store.held := by
  obtain ⟨waited, later, hrest, hfirst, rfl⟩ := h
  -- It reads them for the first time, so it waits no longer than for this event.
  have hwithin : waited ⊆ during := by
    rcases List.append_eq_append_iff.mp (hrest.symm.trans hread) with
      ⟨more, rfl, -⟩ | ⟨more, rfl, hmore⟩
    · exact List.subset_append_left waited more
    · cases more with
      | nil => rw [List.append_nil]; exact List.Subset.refl during
      | cons x more =>
          obtain ⟨rfl, -⟩ := List.cons.inj hmore
          exact absurd (List.mem_append_right during List.mem_cons_self) hfirst
  have hstore : ((s.run path before).1.run path (e :: waited)).1.store =
      (s.run path before).1.store := by
    refine store_run fun change hmem => ?_
    rcases List.mem_cons.mp hmem with rfl | hmem
    · cases he
    · exact hduring change (hwithin hmem)
  rw [run_append]
  simp only [hstore]

/-- The loop is over only after it was told to stop and after a last attempt, and then it does
nothing any more; once it was told to stop, it comes to this as soon as it has finished its dump,
has noticed, and has finished the dump that follows.  Every attempt was begun by a tick, or, if it
is the last one, by being told to stop, and one that succeeds captured the counters that were held
then and the gauges that were held when it read them, which is all that was held then if others
changed nothing until it read these.  At any moment there stands at the path the snapshot of what
the latest attempt captured that succeeded, or what was there at first, so attempts that fail leave
it alone.  What it shows is restored, as long as its levels are finite and read back. -/
theorem leaves_current (path : String) (store : Store) (d : Disk) (events : List Event) :
    let s := ((start store d).run path events).1
    let attempts := ((start store d).run path events).2
    (s.IsOver → .cancel ∈ events ∧ (∃ earlier a, attempts = earlier ++ [a] ∧ a.last = true) ∧
      ∀ more, (s.run path more).1.IsOver ∧ (s.run path more).2 = [] ∧
        (s.run path more).1.disk = s.disk) ∧
      (.cancel ∈ events → ∀ first second, Finishes first → Finishes second →
        (s.run path (first ++ .notice :: second)).1.IsOver) ∧
      (∀ earlier a later, attempts = earlier ++ a :: later →
        (a.last = true → later = [] ∧ s.IsOver) ∧
          ∃ before e rest, events = before ++ e :: rest ∧
            ((start store d).run path before).2 = earlier ∧
            Begins ((start store d).run path before).1 e (if a.last then .ended else .running) ∧
            ∀ k, a.outcome = .ok k → Captures path (start store d) before e rest k ∧
              ∀ during after, rest = during ++ .dump .readGauges :: after →
                (∀ change, .outside change ∉ during) →
                  k = ((start store d).run path before).1.store.held) ∧
      (latest attempts = none → s.disk.fileAt? (d.placeOf path) = d.fileAt? (d.placeOf path)) ∧
      ∀ k, latest attempts = some k →
        s.disk.fileAt? (d.placeOf path) = some (.file (Snapshot.encode k.metrics)) ∧
          s.disk.read? path = some (Snapshot.encode k.metrics) ∧
          (k.Finite → k.ReadsBack →
            Store.inMemory.restore path s.disk = .ok (k.metrics.length, .memory k)) := by
  have hsound := sound_run path store d events
  have htraced := traced_run path store d events
  intro s attempts
  refine ⟨fun hover => ?_, fun hcancel first second => ?_, fun earlier a later hsplit => ?_,
    hsound.placed.first, fun k hk => ?_⟩
  · exact ⟨hsound.told.mp (hsound.ended hover.1), hsound.log.last_of_isOver hover,
      run_of_isOver hover⟩
  · exact isOver_of_told (hsound.told.mpr hcancel)
  · refine ⟨fun ha => ?_, ?_⟩
    · have hlog : Log s attempts := hsound.log
      rw [hsplit] at hlog
      exact hlog.isOver_of_last ha
    · obtain ⟨before, e, rest, hevents, hearlier, hbegins, hcaptures⟩ :=
        htraced.cameAbout earlier a later hsplit
      exact ⟨before, e, rest, hevents, hearlier, hbegins, fun k hk =>
        ⟨hcaptures k hk, fun _ _ hread => (hcaptures k hk).eq_held hbegins hread⟩⟩
  · have hplaced := hsound.placed
    rw [show latest ((start store d).run path events).2 = some k from hk] at hplaced
    exact ⟨hplaced.file k rfl, hplaced.read?, fun hfinite hback =>
      Store.restore_of_read? hfinite hback hplaced.read?⟩

end Telemetry.DumpLoop.State
