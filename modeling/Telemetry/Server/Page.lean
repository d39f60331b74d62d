/-
The status page.

The page lists what is stored, in order, and what was counted.  Texts that
clients choose are escaped, so only the page itself has tags.
-/
import Telemetry.Server.Basic

namespace Telemetry.Server.Page

/-- Every occurrence of a character written as a text. -/
def replace (c : Char) (text : String) (s : String) : String :=
  String.ofList (s.toList.flatMap fun d => if d = c then text.toList else [d])

/-- A text in which no character can begin or end a tag.  Ampersands come first:
those of the replacements stay. -/
def escape (s : String) : String :=
  replace '>' "&gt;" (replace '<' "&lt;" (replace '&' "&amp;" s))

def cell (text : String) : String := "<td>" ++ text ++ "</td>"

def row (cells : List String) : String :=
  "<tr>" ++ String.join (cells.map cell) ++ "</tr>\n"

def table (title : String) (rows : List String) : String :=
  "<h2>" ++ title ++ "</h2>\n<table>\n" ++ String.join rows ++ "</table>\n"

def metricRow (m : Metric) : String := row [m.kind.name, escape m.id, m.asText]

/-- Labels with their escaped values. -/
def labelText (labels : List Label) : String :=
  String.intercalate " " (labels.map fun (name, value) => name ++ "=" ++ escape value)

/-- The row of a counter. -/
def counterRow (entry : List Label × UInt64) : String :=
  row [labelText entry.1, Integer.ofNat entry.2.toNat]

def counters (title : String) (c : Counters) : String := table title (c.snapshot.map counterRow)

/-- What is stored, or why that cannot be told. -/
def stored : Result (List Metric) → String
  | .ok ms =>
    table ("Metrics (" ++ Integer.ofNat ms.length ++ ")") ((Metric.sort ms).map metricRow)
  | .error f => "<p>metrics unavailable: " ++ escape f.message ++ "</p>\n"

def head : String :=
  "<!DOCTYPE html>\n<html><head><title>telemon</title></head><body>\n<h1>Server is working</h1>\n"

def foot : String := "</body></html>\n"

/-- The page of a listing and of counters. -/
def render (listing : Result (List Metric)) (stats : Statistics) : String :=
  head ++ stored listing ++ counters "Requests" stats.requests ++ counters "Updates" stats.updates
    ++ counters "Rejections" stats.rejections ++ foot

end Telemetry.Server.Page
