/-
What clients choose on the status page.

The tags of a text are read off it from left to right (`tags?`); nothing is read of a text in which
a bracket stands out of place.  What is escaped has no bracket, and neither has a numeral.  So a
table has the tags of its rows and columns, whatever stands in its cells, and the page has those of
its tables.  The names of labels are the server's own: they are not escaped, and need not be, as
every counter of a server has the names that it is to have (`Statistics.Named`).

The rows of a listing are in order of kinds and identifiers, which no two metrics of a store share:
their order is that of no enumeration.
-/
import Mathlib.Data.Prod.Lex
import Mathlib.Data.String.Basic
import Telemetry.Proofs.Server.Statistics
import Telemetry.Proofs.Signature.Canonical
import Telemetry.Proofs.Store.Dumping
import Telemetry.Proofs.Store.Writes
import Telemetry.Server.Page

namespace Telemetry

/-! ## Names of labels -/

namespace Counters

/-- Counters whose labels have some names, in this order. -/
def Named (c : Counters) (names : List String) : Prop :=
  ∀ entry ∈ c.snapshot, entry.1.map Prod.fst = names

variable {names : List String}

theorem named_empty : empty.Named names := fun _ h => nomatch h

theorem Named.add {c : Counters} (h : c.Named names) {labels : List Label}
    (hlabels : (Label.sort labels).map Prod.fst = names) (n : UInt64) :
    (c.add labels n).Named names := by
  rintro ⟨others, m⟩ hmem
  replace hmem := mem_snapshot.mp hmem
  rw [Counters.add, Std.ExtTreeMap.getElem?_insert] at hmem
  split at hmem
  · rename_i hsame
    obtain rfl := Std.LawfulEqCmp.eq_of_compare hsame
    exact hlabels
  · exact h (others, m) (mem_snapshot.mpr hmem)

theorem Named.inc {c : Counters} (h : c.Named names) {labels : List Label}
    (hlabels : (Label.sort labels).map Prod.fst = names) : (c.inc labels).Named names :=
  h.add hlabels 1

end Counters

namespace Statistics

/-- Counters with the names that they are to have. -/
structure Named (s : Statistics) : Prop where
  requests : s.requests.Named ["route", "status"]
  updates : s.updates.Named ["kind"]
  rejections : s.rejections.Named ["code"]

theorem named_empty : empty.Named :=
  ⟨Counters.named_empty, Counters.named_empty, Counters.named_empty⟩

variable {s : Statistics}

theorem Named.observe (h : s.Named) (route : String) (status : Nat) :
    (s.observe route status).Named :=
  ⟨h.requests.inc (by rw [sort_requestLabels]; rfl), h.updates, h.rejections⟩

theorem Named.updated (h : s.Named) (kind : Kind) (n : Nat) : (s.updated kind n).Named :=
  ⟨h.requests, h.updates.add (by rw [updateLabels, Label.sort_singleton]; rfl) _, h.rejections⟩

theorem Named.rejected (h : s.Named) (code : Fault.Code) : (s.rejected code).Named :=
  ⟨h.requests, h.updates, h.rejections.inc (by rw [rejectionLabels, Label.sort_singleton]; rfl)⟩

end Statistics

/-! ## The order of metrics -/

namespace Metric

/-- What metrics are ordered by: the names of their kinds, and then their identifiers. -/
def key (m : Metric) : String ×ₗ String := toLex (m.kind.name, m.id)

theorem key_eq_iff {a b : Metric} : a.key = b.key ↔ (a.kind, a.id) = (b.kind, b.id) := by
  simp only [key, toLex_inj, Prod.mk.injEq, Kind.name_inj]

theorem le_iff {a b : Metric} : a.le b = true ↔ a.key ≤ b.key := by
  have hkinds : ∀ j k : Kind, j.rank < k.rank ↔ j.name < k.name := by
    intro j k
    cases j <;> cases k <;> decide
  have hids : (compare a.id b.id).isLE = true ↔ a.id ≤ b.id := by
    rw [Ordering.isLE_iff_ne_gt]
    exact compare_le_iff_le
  rw [le, decide_eq_true_iff, hkinds, hids, key, key, Prod.Lex.toLex_le_toLex, Kind.name_inj]

theorem sort_perm (ms : List Metric) : (sort ms).Perm ms := List.mergeSort_perm ms le

theorem pairwise_sort (ms : List Metric) : (sort ms).Pairwise fun a b => a.key ≤ b.key := by
  have htrans : ∀ a b c : Metric, a.le b = true → b.le c = true → a.le c = true := by
    intro a b c hab hbc
    rw [le_iff] at *
    exact le_trans hab hbc
  have htotal : ∀ a b : Metric, (a.le b || b.le a) = true := by
    intro a b
    rw [Bool.or_eq_true, le_iff, le_iff]
    exact le_total a.key b.key
  exact (List.pairwise_mergeSort htrans htotal ms).imp le_iff.mp

variable {ms : List Metric}

/-- Metrics no two of which share kind and identifier stand in one order only. -/
theorem strict_sort (h : (ms.map key).Nodup) : (sort ms).Pairwise fun a b => a.key < b.key := by
  have hkeys := List.pairwise_map.mp (((sort_perm ms).map key).nodup_iff.mpr h)
  exact ((pairwise_sort ms).and hkeys).imp fun hab => lt_of_le_of_ne hab.1 hab.2

theorem sort_eq_of_perm (h : (ms.map key).Nodup) {ns : List Metric} (hperm : ns.Perm ms) :
    sort ns = sort ms := by
  refine List.Perm.eq_of_pairwise ?_ (pairwise_sort ns) (pairwise_sort ms)
    ((sort_perm ns).trans (hperm.trans (sort_perm ms).symm))
  intro a b ha hb hab hba
  refine List.inj_on_of_nodup_map h ?_ ?_ (le_antisymm hab hba)
  · exact ((sort_perm ns).trans hperm).mem_iff.mp ha
  · exact (sort_perm ms).mem_iff.mp hb

end Metric

namespace Server

namespace Page

/-! ## Escaping -/

/-- What a character is written as. -/
def escapeChar (c : Char) : List Char :=
  if c = '&' then "&amp;".toList
  else if c = '<' then "&lt;".toList
  else if c = '>' then "&gt;".toList
  else [c]

/-- The replacements, one after the other, come to one for each character. -/
theorem toList_escape (s : String) : (escape s).toList = s.toList.flatMap escapeChar := by
  simp only [escape, replace, String.toList_ofList, List.flatMap_assoc]
  congr 1
  funext c
  rw [escapeChar]
  split
  · rfl
  · rename_i hamp
    split
    · rename_i hless
      subst hless
      rfl
    · rename_i hless
      simp [hless]

example : escape "<a> & &lt;" = "&lt;a&gt; &amp; &amp;lt;" := by decide

@[simp] theorem escape_append (a b : String) : escape (a ++ b) = escape a ++ escape b := by
  rw [← String.toList_inj, toList_escape, String.toList_append, List.flatMap_append,
    String.toList_append, toList_escape, toList_escape]

def unescape : List Char → List Char
  | '&' :: 'a' :: 'm' :: 'p' :: ';' :: cs => '&' :: unescape cs
  | '&' :: 'l' :: 't' :: ';' :: cs => '<' :: unescape cs
  | '&' :: 'g' :: 't' :: ';' :: cs => '>' :: unescape cs
  | c :: cs => c :: unescape cs
  | [] => []

theorem unescape_escapeChar (c : Char) (cs : List Char) :
    unescape (escapeChar c ++ cs) = c :: unescape cs := by
  rw [escapeChar]
  split
  · rename_i h
    rw [h]
    rfl
  · rename_i hamp
    split
    · rename_i h
      rw [h]
      rfl
    · split
      · rename_i h
        rw [h]
        rfl
      · rw [List.singleton_append, unescape] <;> simp_all

theorem unescape_escape (s : String) : unescape (escape s).toList = s.toList := by
  rw [toList_escape]
  induction s.toList with
  | nil => rfl
  | cons c cs ih => rw [List.flatMap_cons, unescape_escapeChar, ih]

theorem escape_injective : Function.Injective escape := by
  intro a b h
  rw [← String.toList_inj, ← unescape_escape a, h, unescape_escape]

/-! ## Text without brackets -/

/-- A text in which no tag begins or ends. -/
def Plain (s : String) : Prop := ∀ c ∈ s.toList, c ≠ '<' ∧ c ≠ '>'

instance (s : String) : Decidable (Plain s) := List.decidableBAll _ s.toList

theorem Plain.append {a b : String} (ha : Plain a) (hb : Plain b) : Plain (a ++ b) := by
  intro c hc
  rw [String.toList_append] at hc
  exact (List.mem_append.mp hc).elim (ha c) (hb c)

theorem plain_escape (s : String) : Plain (escape s) := by
  intro c hc
  rw [toList_escape] at hc
  obtain ⟨d, -, hc⟩ := List.mem_flatMap.mp hc
  rw [escapeChar] at hc
  have hwritten : ∀ text ∈ ["&amp;", "&lt;", "&gt;"], Plain text := by decide
  split at hc
  · exact hwritten _ (by decide) c hc
  · split at hc
    · exact hwritten _ (by decide) c hc
    · split at hc
      · exact hwritten _ (by decide) c hc
      · rw [List.mem_singleton] at hc
        subst hc
        exact ⟨‹_›, ‹_›⟩

theorem plain_of_numeral {s : String} (h : ∀ c ∈ s.toList, Numeral c) : Plain s := by
  have hbracket : ¬Numeral '<' ∧ ¬Numeral '>' := by
    constructor <;>
    · rintro (hdigit | hmem)
      · cases hdigit
      · exact absurd hmem (by decide)
  intro c hc
  constructor
  · rintro rfl
    exact hbracket.1 (h _ hc)
  · rintro rfl
    exact hbracket.2 (h _ hc)

theorem plain_ofNat (n : Nat) : Plain (Integer.ofNat n) := by
  refine plain_of_numeral fun c hc => ?_
  rw [Integer.ofNat, String.toList_ofList] at hc
  exact numeral_of_mem_digits hc

theorem plain_intercalate {sep : String} (hsep : Plain sep) {parts : List String}
    (h : ∀ part ∈ parts, Plain part) : Plain (String.intercalate sep parts) := by
  induction parts with
  | nil =>
      rw [String.intercalate_nil]
      decide
  | cons part parts ih =>
      obtain ⟨hpart, hparts⟩ := List.forall_mem_cons.mp h
      cases parts with
      | nil =>
          rw [String.intercalate_singleton]
          exact hpart
      | cons next parts =>
          rw [String.intercalate_cons_cons]
          exact (hpart.append hsep).append (ih hparts)

theorem plain_kind (k : Kind) : Plain k.name := by
  cases k <;> decide

theorem plain_asText {m : Metric} (h : m.hash = none) : Plain m.asText := by
  have hshown : Plain m.shown := by
    rw [Metric.shown]
    split
    · exact plain_of_numeral fun c => Integer.numeral_of_mem_ofInt
    · exact plain_of_numeral fun c => Binary64.numeral_of_mem_fixed
    · decide
  rw [Metric.asText, h]
  exact hshown.append (by decide)

theorem plain_of_mem_cells {m : Metric} (h : m.hash = none) :
    ∀ text ∈ [m.kind.name, escape m.id, m.asText], Plain text :=
  List.forall_mem_cons.mpr ⟨plain_kind m.kind, List.forall_mem_cons.mpr ⟨plain_escape m.id,
    List.forall_mem_singleton.mpr (plain_asText h)⟩⟩

theorem plain_labelText {labels : List Label} (h : ∀ label ∈ labels, Plain label.1) :
    Plain (labelText labels) := by
  refine plain_intercalate (by decide) fun part hpart => ?_
  obtain ⟨⟨name, value⟩, hmem, rfl⟩ := List.mem_map.mp hpart
  exact ((h _ hmem).append (by decide)).append (plain_escape value)

/-! ## Tags -/

/-- The tags of what follows, in order and without their brackets, where the first one may have
been begun; nothing if a bracket stands out of place. -/
def tagsFrom? : Option (List Char) → List Char → Option (List String)
  | none, [] => some []
  | some _, [] => none
  | none, c :: cs =>
    if c = '<' then tagsFrom? (some []) cs
    else if c = '>' then none
    else tagsFrom? none cs
  | some begun, c :: cs =>
    if c = '>' then (tagsFrom? none cs).map (String.ofList begun.reverse :: ·)
    else if c = '<' then none
    else tagsFrom? (some (c :: begun)) cs

/-- The tags of a text. -/
def tags? (s : String) : Option (List String) := tagsFrom? none s.toList

theorem tagsFrom?_append {cs : List Char} {begun : Option (List Char)} {ts : List String}
    (h : tagsFrom? begun cs = some ts) (rest : List Char) :
    tagsFrom? begun (cs ++ rest) = (tagsFrom? none rest).map (ts ++ ·) := by
  induction cs generalizing begun ts with
  | nil =>
      cases begun with
      | none =>
          cases h
          exact Option.map_id'.symm
      | some begun => cases h
  | cons c cs ih =>
      cases begun with
      | none =>
          simp only [tagsFrom?, List.cons_append] at h ⊢
          split at h
          · rw [if_pos ‹_›, ih h]
          · split at h
            · cases h
            · rw [if_neg ‹_›, if_neg ‹_›, ih h]
      | some begun =>
          simp only [tagsFrom?, List.cons_append] at h ⊢
          split at h
          · obtain ⟨us, hus, rfl⟩ := Option.map_eq_some_iff.mp h
            rw [if_pos ‹_›, ih hus, Option.map_map]
            rfl
          · split at h
            · cases h
            · rw [if_neg ‹_›, if_neg ‹_›, ih h]

/-- After a text that ends outside of tags. -/
theorem tags?_append_of {a : String} {ts : List String} (h : tags? a = some ts) (b : String) :
    tags? (a ++ b) = (tags? b).map (ts ++ ·) := by
  rw [tags?, String.toList_append]
  exact tagsFrom?_append h b.toList

theorem tags?_append {a b : String} {ts us : List String} (ha : tags? a = some ts)
    (hb : tags? b = some us) : tags? (a ++ b) = some (ts ++ us) := by
  rw [tags?_append_of ha, hb, Option.map_some]

theorem Plain.tags? {s : String} (h : Plain s) : tags? s = some [] := by
  have hlist : ∀ cs : List Char, (∀ c ∈ cs, c ≠ '<' ∧ c ≠ '>') → tagsFrom? none cs = some [] := by
    intro cs
    induction cs with
    | nil => exact fun _ => rfl
    | cons c cs ih =>
        intro hcs
        obtain ⟨hc, hcs⟩ := List.forall_mem_cons.mp hcs
        rw [tagsFrom?, if_neg hc.1, if_neg hc.2, ih hcs]
  exact hlist s.toList h

theorem tags?_join {parts : List String} {ts : List String}
    (h : ∀ part ∈ parts, tags? part = some ts) :
    tags? (String.join parts) = some (List.replicate parts.length ts).flatten := by
  induction parts with
  | nil => rfl
  | cons part parts ih =>
      obtain ⟨hpart, hparts⟩ := List.forall_mem_cons.mp h
      rw [String.join_cons, tags?_append hpart (ih hparts)]
      rfl

def rowTags (columns : Nat) : List String :=
  ["tr"] ++ (List.replicate columns ["td", "/td"]).flatten ++ ["/tr"]

def tableTags (rows columns : Nat) : List String :=
  ["h2", "/h2", "table"] ++ (List.replicate rows (rowTags columns)).flatten ++ ["/table"]

/-- The tags of a listing with a number of metrics, or of the complaint in its place. -/
def storedTags : Option Nat → List String
  | some n => tableTags n 3
  | none => ["p", "/p"]

/-- The tags that the page begins with. -/
def headTags : List String :=
  ["!DOCTYPE html", "html", "head", "title", "/title", "/head", "body", "h1", "/h1"]

/-- The tags of counters, of which there are so many, and of the end of the page. -/
def countedTags (requests updates rejections : Nat) : List String :=
  tableTags requests 2 ++ tableTags updates 2 ++ tableTags rejections 2 ++ ["/body", "/html"]

theorem tags?_cell {text : String} (h : Plain text) : tags? (cell text) = some ["td", "/td"] := by
  have hbegin : tags? "<td>" = some ["td"] := by decide
  have hend : tags? "</td>" = some ["/td"] := by decide
  exact tags?_append (tags?_append hbegin h.tags?) hend

theorem tags?_row {cells : List String} (h : ∀ text ∈ cells, Plain text) :
    tags? (row cells) = some (rowTags cells.length) := by
  have hbegin : tags? "<tr>" = some ["tr"] := by decide
  have hend : tags? "</tr>\n" = some ["/tr"] := by decide
  have hcells : ∀ part ∈ cells.map cell, tags? part = some ["td", "/td"] := by
    intro part hpart
    obtain ⟨text, hmem, rfl⟩ := List.mem_map.mp hpart
    exact tags?_cell (h text hmem)
  rw [row, tags?_append (tags?_append hbegin (tags?_join hcells)) hend, List.length_map, rowTags]

theorem tags?_table {title : String} (htitle : Plain title) {rows : List String} {columns : Nat}
    (h : ∀ r ∈ rows, tags? r = some (rowTags columns)) :
    tags? (table title rows) = some (tableTags rows.length columns) := by
  have hbegin : tags? "<h2>" = some ["h2"] := by decide
  have hmiddle : tags? "</h2>\n<table>\n" = some ["/h2", "table"] := by decide
  have hend : tags? "</table>\n" = some ["/table"] := by decide
  have htitled := tags?_append (tags?_append hbegin htitle.tags?) hmiddle
  exact tags?_append (tags?_append htitled (tags?_join h)) hend

/-- What follows what is stored. -/
def counted (stats : Statistics) : String :=
  counters "Requests" stats.requests ++ (counters "Updates" stats.updates
    ++ (counters "Rejections" stats.rejections ++ foot))

theorem render_eq (listing : Result (List Metric)) (stats : Statistics) :
    render listing stats = head ++ (stored listing ++ counted stats) := by
  simp only [render, counted, String.append_assoc]

theorem tags?_stored {listing : Result (List Metric)}
    (h : ∀ ms, listing = .ok ms → ∀ m ∈ ms, m.hash = none) :
    tags? (stored listing) = some (storedTags (listing.toOption.map List.length)) := by
  cases listing with
  | error f =>
      have hbegin : tags? "<p>metrics unavailable: " = some ["p"] := by decide
      have hend : tags? "</p>\n" = some ["/p"] := by decide
      exact tags?_append (tags?_append hbegin (plain_escape f.message).tags?) hend
  | ok ms =>
      have htitle : Plain ("Metrics (" ++ Integer.ofNat ms.length ++ ")") :=
        (Plain.append (by decide) (plain_ofNat _)).append (by decide)
      have hrows : ∀ r ∈ (Metric.sort ms).map metricRow, tags? r = some (rowTags 3) := by
        intro r hr
        obtain ⟨m, hm, rfl⟩ := List.mem_map.mp hr
        have hhash := h ms rfl m ((Metric.sort_perm ms).mem_iff.mp hm)
        exact tags?_row (plain_of_mem_cells hhash)
      have hlength : ((Metric.sort ms).map metricRow).length = ms.length := by
        rw [List.length_map, Metric.sort, List.length_mergeSort]
      have htags := tags?_table htitle hrows
      rw [hlength] at htags
      exact htags

theorem tags?_counters {title : String} (htitle : Plain title) {c : Counters} {names : List String}
    (hnamed : c.Named names) (hnames : ∀ name ∈ names, Plain name) :
    tags? (counters title c) = some (tableTags c.snapshot.length 2) := by
  have hrows : ∀ r ∈ c.snapshot.map counterRow, tags? r = some (rowTags 2) := by
    intro r hr
    obtain ⟨entry, hentry, rfl⟩ := List.mem_map.mp hr
    have hlabels : ∀ label ∈ entry.1, Plain label.1 := by
      intro label hlabel
      refine hnames _ ?_
      rw [← hnamed entry hentry]
      exact List.mem_map_of_mem hlabel
    exact tags?_row (List.forall_mem_cons.mpr ⟨plain_labelText hlabels,
      List.forall_mem_singleton.mpr (plain_ofNat _)⟩)
  rw [counters, tags?_table htitle hrows, List.length_map]

theorem tags?_counted {stats : Statistics} (h : stats.Named) :
    tags? (counted stats) = some (countedTags stats.requests.snapshot.length
      stats.updates.snapshot.length stats.rejections.snapshot.length) := by
  have hfoot : tags? foot = some ["/body", "/html"] := by decide
  have hrequests : tags? (counters "Requests" stats.requests) = some (tableTags _ 2) :=
    tags?_counters (by decide) h.requests (by decide)
  have hupdates : tags? (counters "Updates" stats.updates) = some (tableTags _ 2) :=
    tags?_counters (by decide) h.updates (by decide)
  have hrejections : tags? (counters "Rejections" stats.rejections) = some (tableTags _ 2) :=
    tags?_counters (by decide) h.rejections (by decide)
  rw [counted, tags?_append hrequests (tags?_append hupdates (tags?_append hrejections hfoot)),
    countedTags, List.append_assoc, List.append_assoc]

/-- Nothing of a listing but its length is told by the tags of the page. -/
theorem tags?_render {listing : Result (List Metric)}
    (h : ∀ ms, listing = .ok ms → ∀ m ∈ ms, m.hash = none) (stats : Statistics) :
    tags? (render listing stats) = (tags? (counted stats)).map fun ts =>
      headTags ++ (storedTags (listing.toOption.map List.length) ++ ts) := by
  have hhead : tags? head = some headTags := by decide
  rw [render_eq, tags?_append_of hhead, tags?_append_of (tags?_stored h), Option.map_map]
  rfl

/-! ## Rows -/

theorem cell_append_inj {a b x y : String} (ha : Plain a) (hb : Plain b)
    (h : cell a ++ x = cell b ++ y) : a = b ∧ x = y := by
  have hcut : ∀ {a x b y : String}, Plain b → ¬Text.Recut "</td>" a x b y := by
    rintro a x b y hb ⟨p, rfl, -⟩
    have hmem : '<' ∈ (a ++ "</td>" ++ p).toList := by
      rw [String.toList_append, String.toList_append]
      exact List.mem_append_left _ (List.mem_append_right _ List.mem_cons_self)
    exact (hb _ hmem).1 rfl
  have hmark : "</td>".toList = '<' :: "/td>".toList := rfl
  simp only [cell, String.append_assoc, String.append_right_inj] at h
  rw [← String.append_assoc, ← String.append_assoc, Text.append_mark_eq_iff hmark (by decide)] at h
  exact h.resolve_right (not_or.mpr ⟨hcut hb, hcut ha⟩)

/-- A row tells its cells. -/
theorem row_inj {xs ys : List String} (hxs : ∀ text ∈ xs, Plain text)
    (hys : ∀ text ∈ ys, Plain text) (h : row xs = row ys) : xs = ys := by
  have hend : ∀ text s : String, "</tr>\n" ≠ cell text ++ s := by
    intro text s heq
    have hlist := congrArg String.toList heq
    simp [cell] at hlist
  simp only [row, String.append_assoc, String.append_right_inj] at h
  induction xs generalizing ys with
  | nil =>
      cases ys with
      | nil => rfl
      | cons y ys =>
          rw [List.map_cons, String.join_cons, String.append_assoc] at h
          exact absurd h (hend _ _)
  | cons x xs ih =>
      cases ys with
      | nil =>
          rw [List.map_cons, String.join_cons, String.append_assoc] at h
          exact absurd h.symm (hend _ _)
      | cons y ys =>
          obtain ⟨hx, hxs'⟩ := List.forall_mem_cons.mp hxs
          obtain ⟨hy, hys'⟩ := List.forall_mem_cons.mp hys
          simp only [List.map_cons, String.join_cons, String.append_assoc] at h
          obtain ⟨rfl, hrest⟩ := cell_append_inj hx hy h
          rw [ih hxs' hys' hrest]

theorem key_of_metricRow {m n : Metric} (hm : m.hash = none) (hn : n.hash = none)
    (h : metricRow m = metricRow n) : m.key = n.key := by
  have hcells := row_inj (plain_of_mem_cells hm) (plain_of_mem_cells hn) h
  simp only [List.cons.injEq] at hcells
  rw [Metric.key, Metric.key, hcells.1, escape_injective hcells.2.1]

end Page

/-! ## The names that a server counts under -/

variable {s : Server}

theorem named_fulfil (h : s.stats.Named) (w : Wish) (order : Order) :
    (s.fulfil w order).2.stats.Named := by
  cases order with
  | page => exact h
  | probe =>
      simp only [fulfil, ping]
      cases s.store.available with
      | error f => exact h.rejected _
      | ok _ => exact h
  | lookup query =>
      simp only [fulfil, Server.lookup]
      cases s.store.lookup query with
      | error f => exact h.rejected _
      | ok m => exact h
  | update m =>
      simp only [fulfil, apply]
      cases s.store.update m with
      | error f => exact h.rejected _
      | ok t => exact h.updated _ _
  | updateAll batch =>
      simp only [fulfil, applyAll]
      cases s.store.updateAll batch with
      | error f => exact h.rejected _
      | ok t => exact (h.updated _ _).updated _ _

theorem named_settle (h : s.stats.Named) (w : Wish) (asked : Result Order) :
    (s.settle w asked).2.stats.Named := by
  cases asked with
  | error f => exact h.rejected _
  | ok order => exact named_fulfil h w order

theorem named_respond (h : s.stats.Named) (r : Http.Request) (route : Route) :
    (s.respond r route).2.stats.Named := by
  rw [respond_eq]
  cases s.checkOrigin r with
  | error f => exact h.rejected _
  | ok _ =>
      simp only [admitted]
      split
      · rw [handle_eq]
        cases route.plain? with
        | none => exact h
        | some plain => exact named_settle h _ _
      · exact h

theorem named_answerFrame (h : s.stats.Named) (peer : IpAddr) (f : Frame) :
    (s.answerFrame peer f).2.stats.Named := by
  rw [answerFrame, call_eq]
  cases s.frameMetric peer f with
  | error fault => exact h.observe _ _
  | ok m =>
      simp only [Result.bind_ok, apply]
      cases s.store.update m with
      | error fault => exact h.observe _ _
      | ok t => exact (h.updated _ _).observe _ _

/-- Whatever comes in is counted under the names that there are to be. -/
theorem named_take (h : s.stats.Named) (input : Input) : (s.take input).stats.Named := by
  cases input with
  | request r =>
      simp only [take, serve]
      cases Route.ofPath? r.path with
      | none => exact h
      | some route => exact (named_respond h r route).observe _ _
  | frame peer raw =>
      simp only [take, answer]
      cases Frame.decode raw with
      | error fault => exact h.observe _ _
      | ok f => exact named_answerFrame h peer f

theorem named_takeAll (h : s.stats.Named) (inputs : List Input) :
    (s.takeAll inputs).stats.Named := by
  induction inputs generalizing s with
  | nil => exact h
  | cons input inputs ih => exact ih (named_take h input)

end Server

/-! ## The page of a store -/

namespace Store

variable {s : Store} {ms : List Metric}

theorem hash_eq_none (h : s.metrics = .ok ms) : ∀ m ∈ ms, m.hash = none := by
  intro m hm
  rw [metrics_eq_held h, Holdings.metrics, Holdings.mem_listing_iff] at hm
  rcases hm with ⟨id, n, -, rfl⟩ | ⟨id, x, -, rfl⟩ <;> rfl

theorem nodup_keys (h : s.metrics = .ok ms) : (ms.map Metric.key).Nodup := by
  rw [metrics_eq_held h]
  exact List.pairwise_map.mpr ((List.pairwise_map.mp s.held.nodup_metrics).imp
    fun hne hkey => hne (Metric.key_eq_iff.mp hkey))

end Store

namespace Server.Page

theorem nodup_rows {s : Store} {ms : List Metric} (h : s.metrics = .ok ms) :
    ((Metric.sort ms).map metricRow).Nodup := by
  have hperm := Metric.sort_perm ms
  have hunsigned : ∀ m ∈ Metric.sort ms, m.hash = none :=
    fun m hm => Store.hash_eq_none h m (hperm.mem_iff.mp hm)
  have hkeys : ((Metric.sort ms).map Metric.key).Nodup :=
    (hperm.map _).nodup_iff.mpr (Store.nodup_keys h)
  refine List.Nodup.map_on (fun m hm n hn hrow => ?_) hkeys.of_map
  exact List.inj_on_of_nodup_map hkeys hm hn
    (key_of_metricRow (hunsigned m hm) (hunsigned n hn) hrow)

/-- The page does not tell in which order metrics were listed. -/
theorem stored_eq_of_perm {s : Store} {ms ns : List Metric} (h : s.metrics = .ok ms)
    (hperm : ns.Perm ms) : stored (.ok ns) = stored (.ok ms) := by
  have hsort := Metric.sort_eq_of_perm (Store.nodup_keys h) hperm
  show table _ _ = table _ _
  rw [hperm.length_eq, hsort]

/-- What clients choose stays text on the page.  Whatever a store holds and a server has counted,
the tags of the page are those that the number of metrics and of counters calls for, so that other
identifiers change none of them; what is escaped can be told from what it is written as, and is
escaped part by part; and every metric has one row, in an order which is that of the kinds and
identifiers and does not depend on how they were listed. -/
theorem text_stays_text (s : Store) (stats : Statistics) :
    (stats.Named → tags? (render s.metrics stats) = some (headTags ++
      (storedTags (s.metrics.toOption.map List.length) ++
        countedTags stats.requests.snapshot.length stats.updates.snapshot.length
          stats.rejections.snapshot.length))) ∧
    (∀ (server : Server) (inputs : List Input), server.stats = .empty →
      (server.takeAll inputs).stats.Named) ∧
    (∀ t : Store, t.metrics.toOption.map List.length = s.metrics.toOption.map List.length →
      tags? (render t.metrics stats) = tags? (render s.metrics stats)) ∧
    (∀ a b, escape (a ++ b) = escape a ++ escape b) ∧ Function.Injective escape ∧
    ∀ ms, s.metrics = .ok ms →
      (∃ rows : List Metric, rows.Perm ms ∧ rows.Pairwise (fun a b => a.key < b.key) ∧
        render s.metrics stats = head ++ (table ("Metrics (" ++ Integer.ofNat ms.length ++ ")")
          (rows.map metricRow) ++ counted stats) ∧
        ∀ m ∈ ms, (rows.map metricRow).count (metricRow m) = 1) ∧
      ∀ ns, ns.Perm ms → render (.ok ns) stats = render s.metrics stats := by
  have hunsigned : ∀ (t : Store) ms, t.metrics = .ok ms → ∀ m ∈ ms, m.hash = none :=
    fun _ _ => Store.hash_eq_none
  refine ⟨fun hnamed => ?_, fun server inputs hempty => ?_, fun t hlength => ?_, escape_append,
    escape_injective, fun ms hms => ⟨?_, fun ns hperm => ?_⟩⟩
  · rw [tags?_render (hunsigned s), tags?_counted hnamed, Option.map_some]
  · exact named_takeAll (hempty ▸ Statistics.named_empty) inputs
  · rw [tags?_render (hunsigned s), tags?_render (hunsigned t), hlength]
  · refine ⟨Metric.sort ms, Metric.sort_perm ms, Metric.strict_sort (Store.nodup_keys hms), ?_,
      fun m hm => ?_⟩
    · rw [render_eq, hms]
      rfl
    · exact List.count_eq_one_of_mem (nodup_rows hms)
        (List.mem_map_of_mem ((Metric.sort_perm ms).mem_iff.mpr hm))
  · rw [hms, render_eq, render_eq, stored_eq_of_perm hms hperm]

end Server.Page

end Telemetry
