/-
Where path texts lead, and what changes there.

A path text that leads to a file, or to where one can be put, leads to the place that its
moves name (`Disk.placeOf`), whatever stands on the way.  What stands there as a file is
`Disk.fileAt?`; making directories changes no file, writing changes one, and moving takes
a file from one place and puts it in another.  A text goes on leading to a file as long as
no directory is taken away and the file is left alone (`Disk.Keeps`).

Steps that find a file, or a place in a directory where nothing stands, lead to the place that they
name; so the place for a file is the one that its text names, and no directory stands there.  The
name beside a path is another one, and what stands there is another file.
-/
import Telemetry.Proofs.Store.PathText
import Telemetry.Store.Disk

namespace Telemetry.Disk

/-! ## Places -/

/-- The place that moves lead to, whatever stands on the way. -/
def resolve (place : Path) : List String → Path
  | [] => place
  | move :: rest =>
    if move = ".." then resolve place.dropLast rest else resolve (place ++ [move]) rest

def start (d : Disk) (text : String) : Path :=
  if PathText.isAbsolute text then [] else d.current

def placeOf (d : Disk) (text : String) : Path := resolve (d.start text) (PathText.moves text)

/-- The file that stands at a place. -/
def fileAt? (d : Disk) (place : Path) : Option Node :=
  match d.nodes[place]? with
  | some .directory => none
  | other => other

theorem resolve_append (place : Path) (moves more : List String) :
    resolve place (moves ++ more) = resolve (resolve place moves) more := by
  induction moves generalizing place with
  | nil => rfl
  | cons move moves ih =>
      rw [List.cons_append, resolve, resolve]
      split
      · exact ih _
      · exact ih _

theorem resolve_name (place : Path) {name : String} (h : name ≠ "..") :
    resolve place [name] = place ++ [name] := by
  rw [resolve, if_neg h, resolve]

theorem placeOf_beside_ne (d : Disk) (path : String) :
    d.placeOf (PathText.beside path) ≠ d.placeOf path := by
  have hend : ∀ name : String, name ++ ".tmp" ≠ ".." := fun name h => by
    have hlength := congrArg String.length h
    rw [String.length_append] at hlength
    have htmp : ".tmp".length = 4 := by decide +kernel
    have hback : "..".length = 2 := by decide +kernel
    omega
  have hgrow : ∀ name : String, name ++ ".tmp" ≠ name := fun name h => by
    have hlength := congrArg String.length h
    rw [String.length_append] at hlength
    have htmp : ".tmp".length = 4 := by decide +kernel
    omega
  obtain ⟨habsolute, hmoves⟩ := PathText.moves_beside path
  have hstart : PathText.isAbsolute (PathText.beside path) = PathText.isAbsolute path :=
    Bool.eq_iff_iff.mpr habsolute
  rw [placeOf, placeOf, start, start, hstart]
  rcases hmoves with ⟨ms, name, hname, hpath, hbeside⟩ | hbeside
  · rw [hpath, hbeside, resolve_append, resolve_append, resolve_name _ (hend name),
      resolve_name _ hname]
    intro h
    exact hgrow name (List.cons.inj (List.append_cancel_left h)).1
  · rw [hbeside, resolve_append, resolve_name _ (by decide)]
    intro h
    have hlength := congrArg List.length h
    rw [List.length_append, List.length_singleton] at hlength
    omega

/-! ## Following -/

/-- Steps lead from a directory to a place for a file: through directories, and to a name
that is not one. -/
inductive Leads (d : Disk) : Path → List String → Path → Prop where
  | stay {place q : Path} {rest : List String} :
      Leads d place rest q → Leads d place ("." :: rest) q
  | back {place q : Path} {rest : List String} :
      Leads d place.dropLast rest q → Leads d place (".." :: rest) q
  | enter {place q : Path} {name : String} {rest : List String} :
      name ≠ "." → name ≠ ".." → name.utf8ByteSize ≤ maxNameLength →
      d.nodes[place ++ [name]]? = some .directory → Leads d (place ++ [name]) rest q →
      Leads d place (name :: rest) q
  | last {place : Path} {name : String} :
      name ≠ "." → name ≠ ".." → name.utf8ByteSize ≤ maxNameLength →
      d.nodes[place ++ [name]]? ≠ some .directory → Leads d place [name] (place ++ [name])

namespace Leads

variable {d e : Disk} {place q : Path} {steps : List String}

/-- The place is the one that the steps name. -/
theorem eq_resolve (h : Leads d place steps q) : q = resolve place (steps.filter (· ≠ ".")) := by
  induction h with
  | stay _ ih => rw [ih, List.filter_cons_of_neg (by simp)]
  | back _ ih => rw [ih, List.filter_cons_of_pos (by simp), resolve, if_pos rfl]
  | enter hstay hback _ _ _ ih =>
      rw [ih, List.filter_cons_of_pos (by simpa using hstay), resolve, if_neg hback]
  | last hstay hback _ _ =>
      rw [List.filter_cons_of_pos (by simpa using hstay), List.filter_nil, resolve_name _ hback]

theorem ne_directory (h : Leads d place steps q) : d.nodes[q]? ≠ some .directory := by
  induction h with
  | stay _ ih | back _ ih | enter _ _ _ _ _ ih => exact ih
  | last _ _ _ hdir => exact hdir

/-- Steps go on leading to a place as long as no directory is taken away and none is made
at this place. -/
theorem of_dirs (h : Leads d place steps q)
    (hdirs : ∀ p : Path, d.nodes[p]? = some .directory → e.nodes[p]? = some .directory)
    (hq : e.nodes[q]? ≠ some .directory) : Leads e place steps q := by
  induction h with
  | stay _ ih => exact .stay (ih hq)
  | back _ ih => exact .back (ih hq)
  | enter hstay hback hsize hdir _ ih => exact .enter hstay hback hsize (hdirs _ hdir) (ih hq)
  | last hstay hback hsize _ => exact .last hstay hback hsize hq

end Leads

/-- What a lead to a place for a file is, with what stands there. -/
def leadTo (place : Path) : Option Node → Lead
  | some node => .found place node
  | none => .free place

theorem follow_name {d : Disk} {place : Path} {name : String} (hstay : name ≠ ".")
    (hback : name ≠ "..") (hsize : name.utf8ByteSize ≤ maxNameLength) (rest : List String) :
    d.follow place (name :: rest) =
      match d.nodes[place ++ [name]]? with
      | some .directory => d.follow (place ++ [name]) rest
      | some node => if rest = [] then .found (place ++ [name]) node else .barred
      | none => if rest = [] then .free (place ++ [name]) else .missing := by
  rw [follow, if_neg (Nat.not_lt.mpr hsize)]
  all_goals first | rfl | exact hstay | exact hback

theorem follow_of_leads {d : Disk} {place q : Path} {steps : List String}
    (h : Leads d place steps q) : d.follow place steps = leadTo q d.nodes[q]? := by
  induction h with
  | stay _ ih => rw [follow, ih]
  | back _ ih => rw [follow, ih]
  | enter hstay hback hsize hdir _ ih => simp only [follow_name hstay hback hsize, hdir, ih]
  | @last place name hstay hback hsize hdir =>
      rw [follow_name hstay hback hsize]
      cases hnode : d.nodes[place ++ [name]]? with
      | none => simp only [if_true, leadTo]
      | some node =>
          cases node with
          | directory => exact absurd hnode hdir
          | file content | database tables => simp only [if_true, leadTo]

theorem leads_of_follow {d : Disk} {place q : Path} {steps : List String} {node : Option Node}
    (hnode : node ≠ some .directory) (h : d.follow place steps = leadTo q node) :
    Leads d place steps q := by
  have hdirectory : ∀ p, leadTo q node ≠ .found p .directory := fun p hp => by
    cases node with
    | none => cases hp
    | some node => cases hp; exact hnode rfl
  have hends : leadTo q node ≠ .barred ∧ leadTo q node ≠ .missing := by
    cases node with
    | none => exact ⟨nofun, nofun⟩
    | some node => exact ⟨nofun, nofun⟩
  induction place, steps using follow.induct d with
  | case1 place => exact absurd h.symm (hdirectory place)
  | case2 place rest ih => rw [follow] at h; exact .stay (ih h)
  | case3 place rest ih => rw [follow] at h; exact .back (ih h)
  | case4 place name rest hstay hback hlong =>
      rw [follow, if_pos hlong] at h
      · exact absurd h.symm hends.1
      · exact hstay
      · exact hback
  | case5 place name rest hstay hback hsize next hdir ih =>
      simp only [follow_name hstay hback (Nat.not_lt.mp hsize), show d.nodes[place ++ [name]]? =
        some .directory from hdir] at h
      exact .enter hstay hback (Nat.not_lt.mp hsize) hdir (ih h)
  | case6 place name hstay hback hsize next other hother hfound =>
      simp only [follow_name hstay hback (Nat.not_lt.mp hsize), show d.nodes[place ++ [name]]? =
        some other from hfound, if_true] at h
      cases node with
      | none => cases h
      | some node =>
          cases h
          exact .last hstay hback (Nat.not_lt.mp hsize) (fun hdir => hnode (hfound.symm.trans hdir))
  | case7 place name rest hstay hback hsize next other hother hfound hrest =>
      simp only [follow_name hstay hback (Nat.not_lt.mp hsize), show d.nodes[place ++ [name]]? =
        some other from hfound, if_neg hrest] at h
      exact absurd h.symm hends.1
  | case8 place name hstay hback hsize next hfree =>
      simp only [follow_name hstay hback (Nat.not_lt.mp hsize), show d.nodes[place ++ [name]]? =
        none from hfree, if_true] at h
      cases node with
      | none =>
          cases h
          exact .last hstay hback (Nat.not_lt.mp hsize) (fun hdir => hnode (hfree.symm.trans hdir))
      | some node => cases h
  | case9 place name rest hstay hback hsize next hfree hrest =>
      simp only [follow_name hstay hback (Nat.not_lt.mp hsize), show d.nodes[place ++ [name]]? =
        none from hfree, if_neg hrest] at h
      exact absurd h.symm hends.2

theorem leads_of_found {d : Disk} {place q : Path} {steps : List String} {node : Node}
    (hnode : node ≠ .directory) (h : d.follow place steps = .found q node) :
    Leads d place steps q := by
  have hsome : some node ≠ some .directory := fun heq => hnode (Option.some.inj heq)
  exact leads_of_follow hsome h

theorem leads_of_free {d : Disk} {place q : Path} {steps : List String}
    (h : d.follow place steps = .free q) : Leads d place steps q := by
  have hnone : (none : Option Node) ≠ some .directory := nofun
  exact leads_of_follow hnone h

/-! ## Leading -/

/-- A path text that can mean a file. -/
structure Usable (text : String) : Prop where
  empty : text ≠ ""
  allowed : ¬(maxTextLength < text.utf8ByteSize ∨ text.toList.contains '\x00')
  slash : PathText.endsInSlash text = false

theorem lead_of_leads {d : Disk} {text : String} {q : Path} (ht : Usable text)
    (h : Leads d (d.start text) (PathText.steps text) q) : d.lead text = leadTo q d.nodes[q]? := by
  have hfollow := follow_of_leads h
  have hdir := h.ne_directory
  rw [start] at hfollow
  simp only [lead, if_neg ht.empty, if_neg ht.allowed, hfollow]
  cases hnode : d.nodes[q]? with
  | none => rfl
  | some node =>
      cases node with
      | directory => exact absurd hnode hdir
      | file content | database tables => simp [leadTo, ht.slash]

/-- A text shows a place for a file when it leads there. -/
theorem place?_eq_some_iff {d : Disk} {text : String} {q : Path} :
    d.place? text = some q ↔ Usable text ∧ Leads d (d.start text) (PathText.steps text) q := by
  constructor
  · intro h
    by_cases hempty : text = ""
    · simp [place?, lead, hempty] at h
    · by_cases hallowed : maxTextLength < text.utf8ByteSize ∨ text.toList.contains '\x00'
      · simp only [place?, lead, if_neg hempty, if_pos hallowed] at h
        cases h
      · simp only [place?, lead, if_neg hempty, if_neg hallowed] at h
        rw [← start] at h
        by_cases hslash : PathText.endsInSlash text = true
        · cases hf : d.follow (d.start text) (PathText.steps text) with
          | found place node => cases node <;> simp [hf, hslash] at h
          | free place => simp [hf, hslash] at h
          | missing | barred => simp [hf] at h
        · refine ⟨⟨hempty, hallowed, by simpa using hslash⟩, ?_⟩
          cases hf : d.follow (d.start text) (PathText.steps text) with
          | found place node =>
              cases node with
              | directory => simp [hf] at h
              | file content | database tables =>
                  obtain rfl : place = q := by simpa [hf, hslash] using h
                  exact leads_of_found (by simp) hf
          | free place =>
              obtain rfl : place = q := by simpa [hf, hslash] using h
              exact leads_of_free hf
          | missing | barred => simp [hf] at h
  · rintro ⟨ht, h⟩
    have hdir := h.ne_directory
    rw [place?, lead_of_leads ht h]
    cases hnode : d.nodes[q]? with
    | none => simp [leadTo, ht.slash]
    | some node =>
        cases node with
        | directory => exact absurd hnode hdir
        | file content | database tables => rfl

theorem eq_placeOf {d : Disk} {text : String} {q : Path} (h : d.place? text = some q) :
    q = d.placeOf text ∧ d.nodes[q]? ≠ some .directory := by
  obtain ⟨_, hleads⟩ := place?_eq_some_iff.mp h
  rw [placeOf, PathText.moves_eq_filter]
  exact ⟨hleads.eq_resolve, hleads.ne_directory⟩

/-- A text goes on showing its place as long as no directory is taken away and none is made
at this place. -/
theorem place?_of_dirs {d e : Disk} {text : String} {q : Path} (h : d.place? text = some q)
    (hcurrent : e.current = d.current)
    (hdirs : ∀ p : Path, d.nodes[p]? = some .directory → e.nodes[p]? = some .directory)
    (hq : e.nodes[q]? ≠ some .directory) : e.place? text = some q := by
  obtain ⟨ht, hleads⟩ := place?_eq_some_iff.mp h
  have hstart : e.start text = d.start text := by rw [start, start, hcurrent]
  refine place?_eq_some_iff.mpr ⟨ht, ?_⟩
  rw [hstart]
  exact hleads.of_dirs hdirs hq

/-- What is found by a text that is no directory stands at the place that it names. -/
theorem eq_placeOf_of_lead {d : Disk} {text : String} {q : Path} {node : Node}
    (hnode : node ≠ .directory) (h : d.lead text = .found q node) :
    q = d.placeOf text ∧ d.nodes[q]? = some node := by
  have hplace : d.place? text = some q := by
    rw [place?, h]
    cases node with
    | directory => exact absurd rfl hnode
    | file content | database tables => rfl
  obtain ⟨ht, hleads⟩ := place?_eq_some_iff.mp hplace
  rw [lead_of_leads ht hleads] at h
  refine ⟨(eq_placeOf hplace).1, ?_⟩
  cases hq : d.nodes[q]? with
  | none => rw [hq] at h; cases h
  | some other => rw [hq] at h; cases h; rfl

theorem placeOf_congr {d e : Disk} (h : e.current = d.current) (text : String) :
    e.placeOf text = d.placeOf text := by
  rw [placeOf, placeOf, start, start, h]

/-! ## Files -/

theorem fileAt?_eq_some_iff {d : Disk} {p : Path} {node : Node} :
    d.fileAt? p = some node ↔ d.nodes[p]? = some node ∧ node ≠ .directory := by
  rw [fileAt?]
  split
  · rename_i h
    rw [h]
    exact ⟨nofun, fun ⟨heq, hne⟩ => absurd (Option.some.inj heq).symm hne⟩
  · rename_i h
    exact ⟨fun heq => ⟨heq, fun hdir => h (by rw [heq, hdir])⟩, And.left⟩

theorem read?_of_fileAt? {d : Disk} {text : String} {q : Path} {content : Bytes}
    (h : d.place? text = some q) (hq : d.fileAt? q = some (.file content)) :
    d.read? text = some content := by
  obtain ⟨ht, hleads⟩ := place?_eq_some_iff.mp h
  rw [read?, lead_of_leads ht hleads, (fileAt?_eq_some_iff.mp hq).1]
  rfl

theorem getElem?_insert (nodes : Std.ExtTreeMap Path Node) (p q : Path) (node : Node) :
    (nodes.insert p node)[q]? = if p = q then some node else nodes[q]? := by
  rw [Std.ExtTreeMap.getElem?_insert]
  by_cases h : p = q
  · subst h
    rw [if_pos Std.ReflOrd.compare_self, if_pos rfl]
  · rw [if_neg (fun hc => h (Std.LawfulEqCmp.eq_of_compare hc)), if_neg h]

theorem getElem?_put (d : Disk) (p q : Path) (node : Node) :
    (d.put p node).nodes[q]? = if p = q then some node else d.nodes[q]? :=
  getElem?_insert d.nodes p q node

/-- A file that is put somewhere stands there, and all others stay. -/
theorem fileAt?_put (d : Disk) (p q : Path) (content : Bytes) :
    (d.put p (.file content)).fileAt? q = if p = q then some (.file content) else d.fileAt? q := by
  by_cases h : p = q
  · simp [fileAt?, getElem?_put, h]
  · simp [fileAt?, getElem?_put, h]

/-! ## A file that is left alone -/

/-- From one disk to another no directory is taken away, and a place holds the same file. -/
structure Keeps (place : Path) (d e : Disk) : Prop where
  current : e.current = d.current
  dirs : ∀ p : Path, d.nodes[p]? = some .directory → e.nodes[p]? = some .directory
  fileAt? : e.fileAt? place = d.fileAt? place

theorem Keeps.refl (place : Path) (d : Disk) : Keeps place d d := ⟨rfl, fun _ => id, rfl⟩

/-- A text goes on leading to a file that is left alone. -/
theorem Keeps.place? {place : Path} {d e : Disk} (h : Keeps place d e) {text : String}
    {node : Node} (hfile : d.fileAt? place = some node) (hplace : d.place? text = some place) :
    e.place? text = some place := by
  refine place?_of_dirs hplace h.current h.dirs fun hdir => ?_
  obtain ⟨hnode, hne⟩ := fileAt?_eq_some_iff.mp (h.fileAt?.trans hfile)
  rw [hdir] at hnode
  exact hne (Option.some.inj hnode).symm

/-! ## Making directories -/

/-- A disk with more directories than another, and otherwise the same. -/
structure Grown (d e : Disk) : Prop where
  current : e.current = d.current
  nodes : ∀ p : Path, e.nodes[p]? = d.nodes[p]? ∨
    (d.nodes[p]? = none ∧ e.nodes[p]? = some .directory)

namespace Grown

variable {d e f : Disk}

theorem refl (d : Disk) : Grown d d := ⟨rfl, fun _ => .inl rfl⟩

theorem trans (hde : Grown d e) (hef : Grown e f) : Grown d f := by
  refine ⟨hef.current.trans hde.current, fun p => ?_⟩
  rcases hef.nodes p with hp | ⟨hnone, hdir⟩
  · rw [hp]
    exact hde.nodes p
  · rcases hde.nodes p with hp | ⟨_, hdir'⟩
    · exact .inr ⟨hp ▸ hnone, hdir⟩
    · rw [hnone] at hdir'
      exact nomatch hdir'

theorem put {p : Path} (h : d.nodes[p]? = none) : Grown d (d.put p .directory) := by
  refine ⟨rfl, fun q => ?_⟩
  rw [getElem?_put]
  split
  · rename_i hpq
    exact .inr ⟨hpq ▸ h, rfl⟩
  · exact .inl rfl

theorem fileAt? (h : Grown d e) (p : Path) : e.fileAt? p = d.fileAt? p := by
  rcases h.nodes p with hp | ⟨hnone, hdir⟩
  · rw [Disk.fileAt?, Disk.fileAt?, hp]
  · rw [Disk.fileAt?, Disk.fileAt?, hnone, hdir]

theorem keeps (h : Grown d e) (place : Path) : Keeps place d e := by
  refine ⟨h.current, fun p hp => ?_, h.fileAt? place⟩
  rcases h.nodes p with heq | ⟨hnone, hdir⟩
  · rw [heq, hp]
  · exact hdir

end Grown

theorem getElem?_of_lead_free {d : Disk} {text : String} {p : Path} (h : d.lead text = .free p) :
    d.nodes[p]? = none := by
  have hfollow : d.follow (d.start text) (PathText.steps text) = .free p := by
    simp only [lead] at h
    split at h
    · cases h
    · split at h
      · cases h
      · rw [← start] at h
        split at h
        · cases h
        · split at h <;> cases h
        · exact h
  have hleads := leads_of_free hfollow
  rw [follow_of_leads hleads] at hfollow
  cases hp : d.nodes[p]? with
  | none => rfl
  | some node => rw [hp] at hfollow; cases hfollow

theorem grown_makeDirsWithin (fuel : Nat) (text : String) (d : Disk) :
    Grown d (makeDirsWithin fuel text d).2 := by
  induction fuel generalizing text d with
  | zero => exact .refl d
  | succ fuel ih =>
      rw [makeDirsWithin]
      split
      · exact .refl d
      · split
        · exact .refl d
        · exact .put (getElem?_of_lead_free (by assumption))
        · -- The directories above come first, whatever becomes of this one.
          have habove := ih (PathText.parent text) d
          generalize makeDirsWithin fuel (PathText.parent text) d = made at habove
          obtain ⟨made, e⟩ := made
          simp only
          split
          · exact habove
          · exact habove.trans (.put (getElem?_of_lead_free (by assumption)))
          · exact habove
        · exact .refl d

theorem grown_makeDirs (d : Disk) (text : String) : Grown d (d.makeDirs text).2 :=
  grown_makeDirsWithin _ text d

/-! ## Writing and moving -/

theorem write?_eq_some {d e : Disk} {text : String} {content : Bytes}
    (h : d.write? text content = some e) :
    e = d.put (d.placeOf text) (.file content) ∧
      d.nodes[d.placeOf text]? ≠ some .directory := by
  obtain ⟨p, hplace, rfl⟩ := Option.map_eq_some_iff.mp h
  obtain ⟨rfl, hdir⟩ := eq_placeOf hplace
  exact ⟨rfl, hdir⟩

/-- Writing leaves every other file alone. -/
theorem keeps_write? {d e : Disk} {text : String} {content : Bytes} {place : Path}
    (h : d.write? text content = some e) (hplace : d.placeOf text ≠ place) : Keeps place d e := by
  obtain ⟨rfl, hdir⟩ := write?_eq_some h
  refine ⟨rfl, fun p hp => ?_, ?_⟩
  · have hne : d.placeOf text ≠ p := fun heq => hdir (by rw [heq, hp])
    rw [getElem?_put, if_neg hne]
    exact hp
  · rw [fileAt?_put, if_neg hplace]

/-- A file that can be moved leaves the place that its text names, and stands then at the
place that the other text names and leads to. -/
theorem move?_eq_some {d e : Disk} {source target : String} (h : d.move? source target = some e) :
    ∃ node, d.fileAt? (d.placeOf source) = some node ∧ e.current = d.current ∧
      e.fileAt? (d.placeOf target) = some node ∧ e.place? target = some (d.placeOf target) := by
  rw [move?] at h
  split at h
  · cases h
  · rename_i old node new hfile hsource htarget
    obtain ⟨rfl, hold⟩ := eq_placeOf_of_lead hfile hsource
    obtain ⟨rfl, hnew⟩ := eq_placeOf htarget
    obtain rfl := Option.some.inj h
    have hnodes : ∀ p : Path, (((d.nodes.erase (d.placeOf source)).insert (d.placeOf target) node :
        Std.ExtTreeMap Path Node))[p]? = if d.placeOf target = p then some node
          else (d.nodes.erase (d.placeOf source))[p]? := fun p => getElem?_insert _ _ p node
    refine ⟨node, fileAt?_eq_some_iff.mpr ⟨hold, hfile⟩, rfl,
      fileAt?_eq_some_iff.mpr ⟨by rw [hnodes, if_pos rfl], hfile⟩,
      place?_of_dirs htarget rfl (fun p hp => ?_) ?_⟩
    · -- The places that change hold no directory, before or after.
      have hpt : d.placeOf target ≠ p := fun heq => hnew (heq ▸ hp)
      have hps : d.placeOf source ≠ p := fun heq => by
        rw [heq, hp] at hold
        exact hfile (Option.some.inj hold).symm
      rw [hnodes, if_neg hpt, Std.ExtTreeMap.getElem?_erase,
        if_neg fun hc => hps (Std.LawfulEqCmp.eq_of_compare hc)]
      exact hp
    · rw [hnodes, if_pos rfl]
      exact fun heq => hfile (Option.some.inj heq)
  · cases h

end Telemetry.Disk
