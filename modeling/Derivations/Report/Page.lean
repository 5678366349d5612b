import Derivations.Report.Basic

/-!
# Report Pages

A report as a page of HTML: the rules of the grammar, a list of problems if
there are any, and the drawings of all trees. Everything that comes from the
grammar or the sentence is escaped; the drawings have done that themselves.

## Main definitions

* `Report.page`: The page of a report about a grammar.
* `Report.pageLog`: The message left behind by making a page.
* `Report.pageStages`: The page as stages of output.
-/

namespace Derivations

namespace Report

/-- The complaint about a report that has no grammar to show. -/
def withoutGrammar : Text := "render: report without grammar"

/-- An item of a list, on a line of its own. -/
def listItem (content : Text) : Text :=
  "\n<li>" ++ Escape.page content ++ "</li>"

/-- The list of problems, if there are any. -/
def problemList (problems : List Text) : Text :=
  if problems.isEmpty then []
  else
    "\n<p>This grammar has the following problems:</p>\n<ul>" ++ problems.flatMap listItem ++
      "\n</ul>"

/-- The page of a report about a grammar, down to the heading of the trees. -/
def pageHead (r : Report) (g : Grammar) : Text :=
  "<!DOCTYPE html>\n<html>\n<head>\n" ++
    "<meta http-equiv=\"Content-Type\" content=\"text/html; charset=utf-8\"/>\n" ++
    "<title>Derivation trees</title>\n</head>\n<body>\n<h1>Derivation trees</h1>\n" ++
    "<h2>Grammar " ++ Escape.page g.name ++ "</h2>\n<ul class=\"plain\">" ++
    g.listing.flatMap listItem ++ "\n</ul>" ++
    problemList r.problems ++
    "\n<h2>" ++ Escape.page r.heading ++ "</h2>"

/-- The end of the page, behind the drawings. -/
def pageEnd : Text := "\n</body>\n</html>\n"

/-- The page of a report about a grammar. Every drawing begins on a line of its
    own. -/
def page (r : Report) (g : Grammar) : Text :=
  r.pageHead g ++ r.drawings.flatMap (Text.ofString "\n" ++ ·) ++ pageEnd

/-- The message left behind by making a page. -/
def pageLog (r : Report) : Log :=
  Log.debug ("rendering report for " ++ Quoted.text r.sentence ++ " with " ++
    Text.decimal r.trees.length ++ " tree(s)")

/-- A part of the page as a stage of output. -/
def pageStage (chunks : Thunk (Supply Text)) : Stage :=
  { chunks := chunks, complaint? := some "cannot render report" }

/-- The page of a report about a grammar, part by part: what stands above the
    drawings, each of them, and what stands below. -/
def pageParts (r : Report) (g : Grammar) : List Stage :=
  { pageStage (Supply.ofList [r.pageHead g]) with before := r.pageLog } ::
    (MeasuredTree.sorted r.trees).map (fun t =>
      pageStage (Supply.more (Text.ofString "\n") fun _ => Svg.chunks t)) ++
    [pageStage (Supply.ofList [pageEnd])]

/-- The parts of a page make up the page. -/
theorem text_pageParts (r : Report) (g : Grammar) :
    Stage.text (r.pageParts g) = r.page g := by
  simp [Stage.text, pageParts, pageStage, page, drawings, Svg.text, Thunk.get, List.flatMap_map]

/-- The page of a report as stages of output, or the complaint about a report
    without a grammar. -/
def pageStages (r : Report) : Except Text (List Stage) :=
  match r.grammar? with
  | none => .error withoutGrammar
  | some g => .ok (r.pageParts g)

end Report

end Derivations
