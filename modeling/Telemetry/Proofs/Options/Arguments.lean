/-
What a command line and an environment give.

A command line is read argument by argument, and a value that stands apart is taken only when
what follows shows that it is complete.  What it comes to is said without this machine: the line
spells options (`Spells`), each at most once, and every value is one that its option can have.
Where the line is silent about an option the environment is asked, and nowhere else, so a variable
that the line overrides may be set to anything.
-/
import Mathlib.Data.List.Nodup
import Mathlib.Data.List.Pairwise
import Telemetry.Options.Arguments
import Telemetry.Proofs.Text.Marks

namespace Telemetry

/-! ## Values of options -/

theorem find?_named_cons {α β : Type} (name : α → String) (value : α → β) (x : α) (xs : List α)
    (word : String) :
    ((x :: xs).find? (name · = word)).map value =
      if name x = word then some (value x) else (xs.find? (name · = word)).map value := by
  rw [List.find?_cons]
  by_cases h : name x = word
  · rw [if_pos h, decide_eq_true h]
    rfl
  · rw [if_neg h, decide_eq_false h]

theorem Given.value?_cons (entry : String × OptionValue) (g : Given) (word : String) :
    value? (entry :: g) word = if entry.1 = word then some entry.2 else g.value? word :=
  find?_named_cons Prod.fst Prod.snd entry g word

/-- Options that can be told by their words, and by their letters. -/
structure Flag.Distinct (flags : List Flag) : Prop where
  words : (flags.map Flag.word).Nodup
  letters : flags.Pairwise fun e f => e.letter = f.letter → e.letter = none
  named : ∀ f ∈ flags, f.word ≠ "" ∧ '=' ∉ f.word.toList ∧ f.letter ≠ some '-'

namespace Flag.Distinct

variable {flags : List Flag} {f : Flag}

theorem find?_word (h : Distinct flags) (hf : f ∈ flags) :
    flags.find? (·.word = f.word) = some f := by
  have hsome : (flags.find? (·.word = f.word)).isSome = true :=
    List.find?_isSome.mpr ⟨f, hf, decide_eq_true rfl⟩
  obtain ⟨e, he⟩ := Option.isSome_iff_exists.mp hsome
  have hword : e.word = f.word := of_decide_eq_true (List.find?_some he :)
  rw [he, List.inj_on_of_nodup_map h.words (List.mem_of_find?_eq_some he) hf hword]

theorem find?_letter (h : Distinct flags) (hf : f ∈ flags) {c : Char} (hc : f.letter = some c) :
    flags.find? (·.letter = some c) = some f := by
  have hsome : (flags.find? (·.letter = some c)).isSome = true :=
    List.find?_isSome.mpr ⟨f, hf, decide_eq_true hc⟩
  obtain ⟨e, he⟩ := Option.isSome_iff_exists.mp hsome
  have hletter : e.letter = some c := of_decide_eq_true (List.find?_some he :)
  have hsymm : Std.Symm fun e f : Flag => e.letter = f.letter → e.letter = none :=
    ⟨fun _ _ hef hfe => hfe.trans (hef hfe.symm)⟩
  by_contra hne
  have hdiff : e ≠ f := fun heq => hne (he.trans (congrArg some heq))
  have hnone := h.letters.forall (List.mem_of_find?_eq_some he) hf hdiff (hletter.trans hc.symm)
  rw [hletter] at hnone
  cases hnone

end Flag.Distinct

/-! ## Spelling -/

/-- Whether an argument is no option, so that it may be the value of one. -/
def Plainly (cs : List Char) : Prop := ∀ c rest, cs ≠ '-' :: c :: rest

/-- An argument names an option, and a value may be attached to it. -/
inductive Names (f : Flag) : List Char → Option String → Prop where
  | word : Names f ('-' :: '-' :: f.word.toList) none
  | wordWith (raw : String) :
      Names f ('-' :: '-' :: (f.word.toList ++ '=' :: raw.toList)) (some raw)
  | letter {c : Char} (h : f.letter = some c) : Names f ['-', c] none
  | letterWith {c : Char} (h : f.letter = some c) (raw : String) :
      Names f ('-' :: c :: '=' :: raw.toList) (some raw)
  | letterBefore {c : Char} (h : f.letter = some c) {raw : String} (hne : raw ≠ "")
      (hmark : raw.toList.head? ≠ some '=') : Names f ('-' :: c :: raw.toList) (some raw)

/-- A command line spells values of options: each is attached to its option or follows it, and two
dashes may end the line. -/
inductive Spells (flags : List Flag) : List String → List (Flag × String) → Prop where
  | nil : Spells flags [] []
  | ended : Spells flags ["--"] []
  | attached {s raw : String} {f : Flag} {rest : List String} {line : List (Flag × String)}
      (hf : f ∈ flags) (hs : Names f s.toList (some raw)) (hrest : Spells flags rest line) :
      Spells flags (s :: rest) ((f, raw) :: line)
  | apart {s raw : String} {f : Flag} {rest : List String} {line : List (Flag × String)}
      (hf : f ∈ flags) (hs : Names f s.toList none) (hraw : Plainly raw.toList)
      (hrest : Spells flags rest line) : Spells flags (s :: raw :: rest) ((f, raw) :: line)

namespace Arguments

variable {flags : List Flag} {a b : Arguments} {f : Flag} {s : String}

theorem help_ne_ok : (a.help : Except ArgumentFault Arguments) ≠ .ok b := by
  rw [help]
  cases a.settle <;> exact nofun

theorem names_of_word {cs : List Char} (h : a.word flags cs = .ok b) :
    ∃ f ∈ flags, ∃ attached, Names f ('-' :: '-' :: cs) attached ∧ a.option f attached = .ok b := by
  rw [word] at h
  cases hcut : Text.cut? '=' cs with
  | none =>
      simp only [hcut] at h
      split at h
      · rename_i f hfound
        have hword : f.word = String.ofList cs := of_decide_eq_true (List.find?_some hfound :)
        refine ⟨f, List.mem_of_find?_eq_some hfound, none, ?_, h⟩
        have hnames := Names.word (f := f)
        rwa [hword, String.toList_ofList] at hnames
      · split at h
        · exact absurd h help_ne_ok
        · cases h
  | some parts =>
      obtain ⟨x, y⟩ := parts
      obtain ⟨rfl, -⟩ := Text.cut?_eq_some_iff.mp hcut
      simp only [hcut] at h
      split at h
      · rename_i f hfound
        have hword : f.word = String.ofList x := of_decide_eq_true (List.find?_some hfound :)
        refine ⟨f, List.mem_of_find?_eq_some hfound, some (String.ofList y), ?_, h⟩
        have hnames := Names.wordWith (f := f) (String.ofList y)
        rwa [hword, String.toList_ofList, String.toList_ofList] at hnames
      · split at h <;> cases h

theorem names_of_letter {c : Char} {rest : List Char} (h : a.letter flags c rest = .ok b) :
    ∃ f ∈ flags, ∃ attached, Names f ('-' :: c :: rest) attached ∧ a.option f attached = .ok b := by
  unfold letter at h
  cases hfound : flags.find? (·.letter = some c) with
  | none =>
      simp only [hfound] at h
      split at h
      · exact absurd h help_ne_ok
      · cases h
  | some f =>
      have hletter : f.letter = some c := of_decide_eq_true (List.find?_some hfound :)
      simp only [hfound] at h
      refine ⟨f, List.mem_of_find?_eq_some hfound, _, ?_, h⟩
      split
      · exact .letter hletter
      · rename_i value
        have hnames := Names.letterWith hletter (String.ofList value)
        rwa [String.toList_ofList] at hnames
      · rename_i hnil hmark
        have hraw : String.ofList rest ≠ "" := fun heq => hnil (String.ofList_eq_empty_iff.mp heq)
        have hhead : (String.ofList rest).toList.head? ≠ some '=' := by
          rw [String.toList_ofList]
          cases rest with
          | nil => exact nofun
          | cons d rest => exact fun heq => hmark rest (by rw [Option.some.inj heq])
        have hnames := Names.letterBefore hletter hraw hhead
        rwa [String.toList_ofList] at hnames

section

variable (hopen : a.closed = false)

include hopen

theorem step_plain (h : Plainly s.toList) : step flags a s = a.plain s := by
  rw [step, if_neg (Bool.eq_false_iff.mp hopen)]
  split
  · rename_i heq
    exact absurd heq (h _ _)
  · rename_i heq
    exact absurd heq (h _ _)
  · rename_i heq
    exact absurd heq (h _ _)
  · rfl

theorem step_ended : step flags a "--" = .ok { a with closed := true } := by
  rw [step, if_neg (Bool.eq_false_iff.mp hopen)]
  rfl

theorem step_word {cs : List Char} (h : s.toList = '-' :: '-' :: cs) (hne : cs ≠ []) :
    step flags a s = a.word flags cs := by
  cases cs with
  | nil => exact absurd rfl hne
  | cons c cs =>
      rw [step, if_neg (Bool.eq_false_iff.mp hopen), h]
      rfl

theorem step_letter {c : Char} {rest : List Char} (h : s.toList = '-' :: c :: rest)
    (hc : c ≠ '-') : step flags a s = a.letter flags c rest := by
  rw [step, if_neg (Bool.eq_false_iff.mp hopen), h]
  split
  · rename_i heq
    cases heq
    exact absurd rfl hc
  · rename_i heq
    cases heq
    exact absurd rfl hc
  · rename_i heq
    cases heq
    rfl
  · rename_i heq
    exact absurd rfl (heq _ _)

theorem step_names (hflags : Flag.Distinct flags) (hf : f ∈ flags) {attached : Option String}
    (h : Names f s.toList attached) : step flags a s = a.option f attached := by
  obtain ⟨hne, hmark, hdash⟩ := hflags.named f hf
  have hword : f.word.toList ≠ [] := fun heq => hne (String.toList_eq_nil_iff.mp heq)
  have hne : ∀ {c}, f.letter = some c → c ≠ '-' := by
    rintro c hc rfl
    exact hdash hc
  generalize hs : s.toList = cs at h
  cases h with
  | word =>
      rw [step_word hopen hs hword, word, Text.cut?_eq_none_iff.mpr hmark]
      simp only [String.ofList_toList, hflags.find?_word hf]
  | wordWith raw =>
      rw [step_word hopen hs (by simp), word, Text.cut?_eq_some_iff.mpr ⟨rfl, hmark⟩]
      simp only [String.ofList_toList, hflags.find?_word hf]
  | letter hc =>
      rw [step_letter hopen hs (hne hc)]
      simp only [letter, hflags.find?_letter hf hc]
  | letterWith hc raw =>
      rw [step_letter hopen hs (hne hc)]
      simp only [letter, hflags.find?_letter hf hc, String.ofList_toList]
  | @letterBefore c hc raw hraw hhead =>
      rw [step_letter hopen hs (hne hc)]
      unfold letter
      simp only [hflags.find?_letter hf hc]
      split
      · rename_i hnil
        exact absurd (String.toList_eq_nil_iff.mp hnil) hraw
      · rename_i hmark
        exact absurd (congrArg List.head? hmark) hhead
      · rw [String.ofList_toList]

theorem step_cases (h : step flags a s = .ok b) :
    (s = "--" ∧ b = { a with closed := true }) ∨
      (∃ f ∈ flags, ∃ attached, Names f s.toList attached ∧ a.option f attached = .ok b) ∨
      Plainly s.toList ∧ a.plain s = .ok b := by
  rw [step, if_neg (Bool.eq_false_iff.mp hopen)] at h
  split at h
  · rename_i hs
    cases h
    exact .inl ⟨String.toList_inj.mp hs, rfl⟩
  · rename_i cs hne hs
    obtain ⟨f, hf, attached, hnames, hb⟩ := names_of_word h
    exact .inr (.inl ⟨f, hf, attached, hs ▸ hnames, hb⟩)
  · rename_i c rest hended hword hs
    obtain ⟨f, hf, attached, hnames, hb⟩ := names_of_letter h
    exact .inr (.inl ⟨f, hf, attached, hs ▸ hnames, hb⟩)
  · rename_i hended hword hletter
    exact .inr (.inr ⟨hletter, h⟩)

end

/-! ## Reading the line -/

/-- The values of a line, after what was read before. -/
def finish (flags : List Flag) (a : Arguments) (arguments : List String) :
    Except ArgumentFault Given := (arguments.foldlM (step flags) a).bind settle

/-- Gives options their values, one after the other. -/
def assignAll (g : Given) (line : List (Flag × String)) : Except ArgumentFault Given :=
  line.foldlM (fun g p => assign g p.1 p.2) g

theorem finish_cons (a : Arguments) (s : String) (rest : List String) :
    finish flags a (s :: rest) = (step flags a s).bind fun b => finish flags b rest := by
  rw [finish, List.foldlM_cons]
  cases step flags a s <;> rfl

theorem assignAll_cons (g : Given) (f : Flag) (raw : String) (line : List (Flag × String)) :
    assignAll g ((f, raw) :: line) = (assign g f raw).bind fun g => assignAll g line := by
  rw [assignAll, List.foldlM_cons]
  rfl

/-- Where a new option may begin. -/
structure Ready (a : Arguments) : Prop where
  opened : a.closed = false
  settled : ∀ f, a.pending ≠ some (f, none)

theorem ready_start : start.Ready := ⟨rfl, fun _ => nofun⟩

/-- What a line spells is what options are given. -/
theorem finish_of_spells (hflags : Flag.Distinct flags) {arguments : List String}
    {line : List (Flag × String)} (h : Spells flags arguments line) (ha : a.Ready) :
    finish flags a arguments = a.settle.bind fun g => assignAll g line := by
  induction h generalizing a with
  | nil =>
      show a.settle = _
      cases a.settle <;> rfl
  | ended =>
      rw [finish_cons, step_ended ha.opened]
      show a.settle = _
      cases a.settle <;> rfl
  | @attached s raw f rest line hf hs _ ih =>
      rw [finish_cons, step_names ha.opened hflags hf hs, option]
      cases a.settle with
      | error e => rfl
      | ok g =>
          show ((assign g f raw).map _).bind _ = assignAll g ((f, raw) :: line)
          rw [assignAll_cons]
          cases assign g f raw with
          | error e => rfl
          | ok g => exact ih ⟨rfl, fun _ => nofun⟩
  | @apart s raw f rest line hf hs hraw _ ih =>
      rw [finish_cons, step_names ha.opened hflags hf hs, option]
      cases a.settle with
      | error e => rfl
      | ok g =>
          show finish flags ⟨g, some (f, none), false⟩ (raw :: rest) =
            assignAll g ((f, raw) :: line)
          rw [finish_cons, step_plain rfl hraw]
          have hready : Ready ⟨g, some (f, some raw), false⟩ := ⟨rfl, fun _ h => nomatch h⟩
          exact (ih hready).trans (assignAll_cons g f raw line).symm

theorem option_eq_ok {attached : Option String} (h : a.option f attached = .ok b) :
    (∃ g, a.settle = .ok g) ∧ b.closed = false ∧
      b.pending = if attached.isSome then none else some (f, none) := by
  rw [option] at h
  cases hsettle : a.settle with
  | error e =>
      rw [hsettle] at h
      cases h
  | ok g =>
      rw [hsettle] at h
      refine ⟨⟨g, rfl⟩, ?_⟩
      cases attached with
      | none =>
          cases h
          exact ⟨rfl, rfl⟩
      | some raw =>
          have hassign : (assign g f raw).map (fun g => (⟨g, none, false⟩ : Arguments)) = .ok b := h
          cases hg : assign g f raw with
          | error e =>
              rw [hg] at hassign
              cases hassign
          | ok g =>
              rw [hg] at hassign
              cases hassign
              exact ⟨rfl, rfl⟩

theorem settle_of_pending (h : a.pending = some (f, none)) : a.settle = .error .invalidValue := by
  simp only [settle, h]

/-- A line that is read spells options; where an option waits for its value, the value comes
first. -/
theorem spells_of_finish {arguments : List String} {g : Given}
    (h : finish flags a arguments = .ok g) :
    (a.closed = true → arguments = []) ∧
      (a.Ready → ∃ line, Spells flags arguments line) ∧
      ∀ f, a.closed = false → a.pending = some (f, none) →
        ∃ raw rest line, arguments = raw :: rest ∧ Plainly raw.toList ∧ Spells flags rest line := by
  induction arguments generalizing a with
  | nil =>
      refine ⟨fun _ => rfl, fun _ => ⟨[], .nil⟩, fun f _ hpending => ?_⟩
      have hsettle : a.settle = .ok g := h
      rw [settle_of_pending hpending] at hsettle
      cases hsettle
  | cons s rest ih =>
      rw [finish_cons] at h
      cases hstep : step flags a s with
      | error e =>
          rw [hstep] at h
          cases h
      | ok b =>
          rw [hstep] at h
          have hb : finish flags b rest = .ok g := h
          obtain ⟨hended, hready, hwaits⟩ := ih hb
          refine ⟨fun hclosed => ?_, fun ha => ?_, fun f hopen hpending => ?_⟩
          · rw [step, if_pos hclosed] at hstep
            cases hstep
          · rcases step_cases ha.opened hstep with ⟨rfl, rfl⟩ | ⟨f, hf, attached, hs, hoption⟩ |
              ⟨-, hplain⟩
            · rw [hended rfl]
              exact ⟨[], .ended⟩
            · obtain ⟨-, hclosed, hpending⟩ := option_eq_ok hoption
              cases attached with
              | none =>
                  obtain ⟨raw, rest, line, rfl, hraw, hline⟩ := hwaits f hclosed hpending
                  exact ⟨(f, raw) :: line, .apart hf hs hraw hline⟩
              | some raw =>
                  obtain ⟨line, hline⟩ :=
                    hready ⟨hclosed, fun _ heq => nomatch hpending.symm.trans heq⟩
                  exact ⟨(f, raw) :: line, .attached hf hs hline⟩
            · rw [plain] at hplain
              split at hplain
              · rename_i f hpending
                exact absurd hpending (ha.settled f)
              · cases hplain
          · rcases step_cases hopen hstep with ⟨rfl, rfl⟩ | ⟨e, -, attached, -, hoption⟩ |
              ⟨hs, hplain⟩
            · obtain rfl := hended rfl
              have hwaiting : settle { a with closed := true } = .error .invalidValue :=
                settle_of_pending hpending
              cases hwaiting.symm.trans hb
            · obtain ⟨⟨g, hsettle⟩, -, -⟩ := option_eq_ok hoption
              rw [settle_of_pending hpending] at hsettle
              cases hsettle
            · simp only [plain, hpending] at hplain
              cases hplain
              obtain ⟨line, hline⟩ := hready ⟨hopen, fun _ heq => nomatch heq⟩
              exact ⟨s, rest, line, rfl, hs, hline⟩

end Arguments

/-! ## What options are given -/

namespace Flag

/-- What an option is given on a line. -/
def given? (f : Flag) (line : List (Flag × String)) : Option String :=
  (line.find? (·.1.word = f.word)).map (·.2)

/-- What the variable of an option is set to. -/
def set? (f : Flag) (environment : List (String × String)) : Option String :=
  (environment.find? (·.1 = f.envName)).map (·.2)

/-- The value that a text is for an option. -/
def value? (f : Flag) (raw : String) : Option OptionValue := (f.kind.read raw).toOption

theorem value?_eq_some_iff {f : Flag} {raw : String} {v : OptionValue} :
    f.value? raw = some v ↔ f.kind.read raw = .ok v := by
  rw [value?]
  cases f.kind.read raw with
  | error e => exact ⟨nofun, nofun⟩
  | ok w => simp [Except.toOption]

theorem given?_cons (f e : Flag) (raw : String) (line : List (Flag × String)) :
    f.given? ((e, raw) :: line) = if e.word = f.word then some raw else f.given? line :=
  find?_named_cons (fun p : Flag × String => p.1.word) Prod.snd (e, raw) line f.word

end Flag

namespace Arguments

variable {flags : List Flag} {environment : List (String × String)} {g g' : Given} {f : Flag}

theorem bind_eq_ok_iff {α β : Type} {x : Except ArgumentFault α}
    {next : α → Except ArgumentFault β} {b : β} :
    x.bind next = .ok b ↔ ∃ a, x = .ok a ∧ next a = .ok b := by
  cases x with
  | error e => exact ⟨nofun, fun ⟨_, h, _⟩ => nomatch h⟩
  | ok a => exact ⟨fun h => ⟨a, rfl, h⟩, fun ⟨_, h, hnext⟩ => by cases h; exact hnext⟩

theorem exists_bind_eq_ok_iff {α β : Type} {x : Except ArgumentFault α}
    {next : α → Except ArgumentFault β} :
    (∃ b, x.bind next = .ok b) ↔ ∃ a, x = .ok a ∧ ∃ b, next a = .ok b := by
  simp only [bind_eq_ok_iff]
  exact ⟨fun ⟨b, a, h, h'⟩ => ⟨a, h, b, h'⟩, fun ⟨a, h, b, h'⟩ => ⟨b, a, h, h'⟩⟩

theorem assign_eq_ok_iff {raw : String} :
    assign g f raw = .ok g' ↔
      g.value? f.word = none ∧ ∃ v, f.value? raw = some v ∧ g' = (f.word, v) :: g := by
  rw [assign]
  cases g.value? f.word with
  | some w => exact ⟨nofun, nofun⟩
  | none =>
      simp only [Option.isSome_none, Bool.false_eq_true, if_false, true_and, Flag.value?]
      cases f.kind.read raw with
      | error e => exact ⟨nofun, nofun⟩
      | ok v => simp [Except.map, Except.toOption, eq_comm]

/-- Each option is given a value that it can have, and none is given two. -/
theorem exists_assignAll_iff {line : List (Flag × String)} :
    (∃ g', assignAll g line = .ok g') ↔
      (line.map (·.1.word)).Nodup ∧
        ∀ p ∈ line, g.value? p.1.word = none ∧ ∃ v, p.1.value? p.2 = some v := by
  induction line generalizing g with
  | nil => exact ⟨fun _ => ⟨List.nodup_nil, nofun⟩, fun _ => ⟨g, rfl⟩⟩
  | cons p line ih =>
      obtain ⟨f, raw⟩ := p
      simp only [assignAll_cons, exists_bind_eq_ok_iff, assign_eq_ok_iff, ih, List.map_cons,
        List.nodup_cons, List.forall_mem_cons]
      constructor
      · rintro ⟨_, ⟨hfree, v, hv, rfl⟩, hnodup, hline⟩
        have hother : ∀ p ∈ line, f.word ≠ p.1.word := by
          intro p hp heq
          have hnone := (hline p hp).1
          rw [Given.value?_cons, if_pos heq] at hnone
          cases hnone
        refine ⟨⟨fun hmem => ?_, hnodup⟩, ⟨hfree, v, hv⟩, fun p hp => ⟨?_, (hline p hp).2⟩⟩
        · obtain ⟨p, hp, heq⟩ := List.mem_map.mp hmem
          exact hother p hp heq.symm
        · have hnone := (hline p hp).1
          rwa [Given.value?_cons, if_neg (hother p hp)] at hnone
      · rintro ⟨⟨hmem, hnodup⟩, ⟨hfree, v, hv⟩, hline⟩
        refine ⟨_, ⟨hfree, v, hv, rfl⟩, hnodup, fun p hp => ⟨?_, (hline p hp).2⟩⟩
        have hother : f.word ≠ p.1.word := fun heq => hmem (heq ▸ List.mem_map_of_mem hp)
        rw [Given.value?_cons, if_neg hother, (hline p hp).1]

theorem value?_assignAll {line : List (Flag × String)} (h : assignAll g line = .ok g')
    (hf : ∀ p ∈ line, p.1.word = f.word → p.1 = f) :
    g'.value? f.word = ((f.given? line).bind f.value?).or (g.value? f.word) := by
  induction line generalizing g with
  | nil =>
      cases h
      rfl
  | cons p line ih =>
      obtain ⟨e, raw⟩ := p
      obtain ⟨he, hf⟩ := List.forall_mem_cons.mp hf
      rw [assignAll_cons] at h
      obtain ⟨g₁, hassign, hline⟩ := bind_eq_ok_iff.mp h
      obtain ⟨hfree, v, hv, rfl⟩ := assign_eq_ok_iff.mp hassign
      rw [ih hline hf, Flag.given?_cons, Given.value?_cons]
      by_cases hsame : e.word = f.word
      · obtain rfl := he hsame
        have hagain : e.given? line = none := by
          refine Option.map_eq_none_iff.mpr (List.find?_eq_none.mpr fun p hp hword => ?_)
          have hnone := ((exists_assignAll_iff.mp ⟨g', hline⟩).2 p hp).1
          rw [Given.value?_cons, if_pos (of_decide_eq_true hword).symm] at hnone
          cases hnone
        simp only [hagain, if_true, Option.bind_none, Option.none_or, Option.bind_some, hv,
          Option.some_or]
      · rw [if_neg hsame, if_neg hsame]

/-! ## Asking the environment -/

theorem ask_of_given (h : g.value? f.word ≠ none) : ask environment g f = .ok g := by
  rw [ask, if_pos (Option.isSome_iff_ne_none.mpr h)]

theorem ask_of_silent (h : g.value? f.word = none) :
    ask environment g f = match f.set? environment with
      | some raw => assign g f raw
      | none => .ok g := by
  rw [ask, h, Flag.set?]
  cases environment.find? (·.1 = f.envName) <;> rfl

/-- Only an option without a value can be set to something that it cannot have. -/
theorem exists_ask_iff :
    (∃ g', ask environment g f = .ok g') ↔
      (g.value? f.word = none → ∀ raw, f.set? environment = some raw →
        ∃ v, f.value? raw = some v) := by
  cases hgiven : g.value? f.word with
  | some w =>
      have hne : g.value? f.word ≠ none := fun h => nomatch hgiven.symm.trans h
      exact iff_of_true ⟨g, ask_of_given hne⟩ nofun
  | none =>
      rw [ask_of_silent hgiven]
      cases f.set? environment with
      | none => exact iff_of_true ⟨g, rfl⟩ fun _ _ => nofun
      | some raw =>
          simp only [assign_eq_ok_iff, hgiven, true_and, forall_const, Option.some.injEq,
            forall_eq']
          exact ⟨fun ⟨_, v, hv, _⟩ => ⟨v, hv⟩, fun ⟨v, hv⟩ => ⟨_, v, hv, rfl⟩⟩

theorem value?_ask (h : ask environment g f = .ok g') (word : String) :
    g'.value? word =
      if f.word = word then (g.value? f.word).or ((f.set? environment).bind f.value?)
      else g.value? word := by
  cases hgiven : g.value? f.word with
  | some w =>
      rw [ask_of_given fun hnone => nomatch hgiven.symm.trans hnone] at h
      cases h
      split
      · rename_i hword
        rw [← hword, hgiven, Option.some_or]
      · rfl
  | none =>
      rw [ask_of_silent hgiven] at h
      cases hset : f.set? environment with
      | none =>
          rw [hset] at h
          cases h
          split
          · rename_i hword
            rw [← hword, hgiven]
            rfl
          · rfl
      | some raw =>
          rw [hset] at h
          obtain ⟨-, v, hv, rfl⟩ := assign_eq_ok_iff.mp h
          rw [Given.value?_cons, Option.none_or, Option.bind_some, hv]

/-- The values of options, after the environment was asked about each of them. -/
def askAll (flags : List Flag) (environment : List (String × String)) (g : Given) :
    Except ArgumentFault Given := flags.foldlM (ask environment) g

theorem askAll_cons (f : Flag) (flags : List Flag) (g : Given) :
    askAll (f :: flags) environment g =
      (ask environment g f).bind (askAll flags environment) := by
  rw [askAll, List.foldlM_cons]
  rfl

theorem exists_askAll_iff (hwords : (flags.map Flag.word).Nodup) :
    (∃ g', askAll flags environment g = .ok g') ↔
      ∀ f ∈ flags, g.value? f.word = none → ∀ raw, f.set? environment = some raw →
        ∃ v, f.value? raw = some v := by
  induction flags generalizing g with
  | nil => exact iff_of_true ⟨g, rfl⟩ nofun
  | cons f flags ih =>
      obtain ⟨hfresh, hwords⟩ := List.nodup_cons.mp hwords
      have hrest : ∀ {g₁}, ask environment g f = .ok g₁ → ∀ e ∈ flags,
          g₁.value? e.word = g.value? e.word := by
        intro g₁ hask e he
        have hother : f.word ≠ e.word := fun heq => hfresh (heq ▸ List.mem_map_of_mem he)
        rw [value?_ask hask, if_neg hother]
      rw [askAll_cons, exists_bind_eq_ok_iff, List.forall_mem_cons, ← exists_ask_iff]
      constructor
      · rintro ⟨g₁, hask, hall⟩
        refine ⟨⟨g₁, hask⟩, fun e he hnone => ?_⟩
        exact (ih hwords).mp hall e he ((hrest hask e he).trans hnone)
      · rintro ⟨⟨g₁, hask⟩, hall⟩
        refine ⟨g₁, hask, (ih hwords).mpr fun e he hnone => ?_⟩
        exact hall e he ((hrest hask e he).symm.trans hnone)

theorem value?_askAll (hwords : (flags.map Flag.word).Nodup)
    (h : askAll flags environment g = .ok g') :
    (∀ f ∈ flags, g'.value? f.word =
      (g.value? f.word).or ((f.set? environment).bind f.value?)) ∧
      ∀ word, word ∉ flags.map Flag.word → g'.value? word = g.value? word := by
  induction flags generalizing g with
  | nil =>
      cases h
      exact ⟨nofun, fun _ _ => rfl⟩
  | cons f flags ih =>
      obtain ⟨hfresh, hwords⟩ := List.nodup_cons.mp hwords
      rw [askAll_cons] at h
      obtain ⟨g₁, hask, hall⟩ := bind_eq_ok_iff.mp h
      obtain ⟨hvalues, hothers⟩ := ih hwords hall
      refine ⟨List.forall_mem_cons.mpr ⟨?_, fun e he => ?_⟩, fun word hword => ?_⟩
      · rw [hothers _ hfresh, value?_ask hask, if_pos rfl]
      · have hother : f.word ≠ e.word := fun heq => hfresh (heq ▸ List.mem_map_of_mem he)
        rw [hvalues e he, value?_ask hask, if_neg hother]
      · rw [List.map_cons, List.mem_cons, not_or] at hword
        obtain ⟨hne, hword⟩ := hword
        rw [hothers word hword, value?_ask hask, if_neg (Ne.symm hne)]

end Arguments

/-! ## The whole -/

/-- A line is what a command line says, beside an environment: it is spelled there, gives no option
twice and gives each a value that it can have, and so does the environment where the line is
silent. -/
structure Says (flags : List Flag) (arguments : List String) (environment : List (String × String))
    (line : List (Flag × String)) : Prop where
  spells : Spells flags arguments line
  once : (line.map (·.1.word)).Nodup
  reads : ∀ p ∈ line, ∃ v, p.1.value? p.2 = some v
  asks : ∀ f ∈ flags, f.given? line = none → ∀ raw, f.set? environment = some raw →
    ∃ v, f.value? raw = some v

theorem Spells.mem {flags : List Flag} {arguments : List String} {line : List (Flag × String)}
    (h : Spells flags arguments line) : ∀ p ∈ line, p.1 ∈ flags := by
  induction h with
  | nil => exact nofun
  | ended => exact nofun
  | attached hf _ _ ih => exact List.forall_mem_cons.mpr ⟨hf, ih⟩
  | apart hf _ _ _ ih => exact List.forall_mem_cons.mpr ⟨hf, ih⟩

namespace Arguments

variable {flags : List Flag} {arguments : List String} {environment : List (String × String)}
  {line : List (Flag × String)} {g : Given}

theorem parse_eq (flags : List Flag) (arguments : List String)
    (environment : List (String × String)) :
    parse flags arguments environment =
      (finish flags start arguments).bind (askAll flags environment) := by
  rw [parse, finish]
  cases arguments.foldlM (step flags) start <;> rfl

variable (hflags : Flag.Distinct flags)

include hflags

theorem parse_of_spells (h : Spells flags arguments line) :
    parse flags arguments environment =
      (assignAll [] line).bind (askAll flags environment) := by
  rw [parse_eq, finish_of_spells hflags h ready_start]
  rfl

theorem eq_of_word (h : Spells flags arguments line) {f : Flag} (hf : f ∈ flags) :
    ∀ p ∈ line, p.1.word = f.word → p.1 = f :=
  fun p hp hword => List.inj_on_of_nodup_map hflags.words (h.mem p hp) hf hword

/-- An option has the value that the line gives it, or else the value that the environment
does. -/
theorem value?_of_parse (hline : Spells flags arguments line)
    (h : parse flags arguments environment = .ok g) {f : Flag} (hf : f ∈ flags) :
    g.value? f.word =
      ((f.given? line).bind f.value?).or ((f.set? environment).bind f.value?) := by
  rw [parse_of_spells hflags hline] at h
  obtain ⟨g₁, hassign, hask⟩ := bind_eq_ok_iff.mp h
  rw [(value?_askAll hflags.words hask).1 f hf,
    value?_assignAll hassign (eq_of_word hflags hline hf)]
  simp only [Given.value?, List.find?_nil, Option.map_none, Option.or_none]

/-- What a line gives an option is one of its values. -/
theorem mem_of_given? (h : Spells flags arguments line) {f : Flag} (hf : f ∈ flags) {raw : String}
    (hraw : f.given? line = some raw) : (f, raw) ∈ line := by
  obtain ⟨p, hp, rfl⟩ := Option.map_eq_some_iff.mp hraw
  have hmem := List.mem_of_find?_eq_some hp
  rwa [← eq_of_word hflags h hf p hmem (of_decide_eq_true (List.find?_some hp :))]

theorem exists_parse_iff_of_spells (h : Spells flags arguments line) :
    (∃ g, parse flags arguments environment = .ok g) ↔
      Says flags arguments environment line := by
  -- An option that the line gives a value is not asked about.
  have hsilent : ∀ {g₁}, assignAll [] line = .ok g₁ → ∀ f ∈ flags,
      (g₁.value? f.word = none ↔ f.given? line = none) := by
    intro g₁ hassign f hf
    rw [value?_assignAll hassign (eq_of_word hflags h hf)]
    cases hgiven : f.given? line with
    | none => exact iff_of_true rfl rfl
    | some raw =>
        obtain ⟨v, hv⟩ := ((exists_assignAll_iff.mp ⟨g₁, hassign⟩).2 _
          (mem_of_given? hflags h hf hgiven)).2
        rw [Option.bind_some, hv]
        exact iff_of_false nofun nofun
  rw [parse_of_spells hflags h, exists_bind_eq_ok_iff]
  constructor
  · rintro ⟨g₁, hassign, hask⟩
    obtain ⟨honce, hreads⟩ := exists_assignAll_iff.mp ⟨g₁, hassign⟩
    refine ⟨h, honce, fun p hp => (hreads p hp).2, fun f hf hnone => ?_⟩
    exact (exists_askAll_iff hflags.words).mp hask f hf ((hsilent hassign f hf).mpr hnone)
  · intro htold
    obtain ⟨g₁, hassign⟩ : ∃ g₁, assignAll [] line = .ok g₁ :=
      exists_assignAll_iff.mpr ⟨htold.once, fun p hp => ⟨rfl, htold.reads p hp⟩⟩
    refine ⟨g₁, hassign, (exists_askAll_iff hflags.words).mpr fun f hf hnone => ?_⟩
    exact htold.asks f hf ((hsilent hassign f hf).mp hnone)

/-- A command line and an environment give values exactly when a line says which. -/
theorem exists_parse_iff :
    (∃ g, parse flags arguments environment = .ok g) ↔
      ∃ line, Says flags arguments environment line := by
  constructor
  · rintro ⟨g, h⟩
    have hparse := h
    rw [parse_eq] at hparse
    obtain ⟨g₁, hfinish, -⟩ := bind_eq_ok_iff.mp hparse
    obtain ⟨line, hline⟩ := (spells_of_finish hfinish).2.1 ready_start
    exact ⟨line, (exists_parse_iff_of_spells hflags hline).mp ⟨g, h⟩⟩
  · rintro ⟨line, h⟩
    exact (exists_parse_iff_of_spells hflags h.spells).mpr h

end Arguments

end Telemetry
