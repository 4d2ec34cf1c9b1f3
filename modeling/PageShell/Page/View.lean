/-
How the parts of the page look.

Only a line of markup is shown as markup; all other text is shown as text.
-/
import PageShell.Output.Line
import PageShell.Page.Field
import PageShell.Page.Html

namespace PageShell.View

/-- a line of the transcript -/
def line : Line → Html
  | .text s => .div "line textFg" [.text s]
  | .error s => .div "line textRed" [.text s]
  | .markup html => .div "markup" [.raw html]
  | .image source => .void "img" [("src", source), ("alt", ""), ("class", "image")]
  | .command prompt input =>
    .div "command" [.span "textGreen" prompt, .span "textDim" "$ ", .span "textFg" input]

/-- the candidates on show, with the selected one marked; nothing if there are none -/
def suggestions (cycle : TabCycle) : List Html :=
  if cycle.isActive then
    [.div "suggestions" (cycle.candidates.mapIdx fun i c =>
      .span (if i = cycle.index then "suggestion suggestionActive" else "suggestion") c)]
  else []

/-- the prompt, the field and the candidates on show -/
def field (prompt : String) (cycle : TabCycle) : Html :=
  .div "inputWrapper"
    (.div "line"
        [.span "prompt" prompt, .span "separator" "$ ",
          .void "input" [("type", "text"), ("autocomplete", "off"), ("spellcheck", "false"),
            ("class", "input")]]
      :: suggestions cycle)

/-- the transcript, and below it a field with this prompt if there is one -/
def page (lines : List Line) (prompt : Option String) : Html :=
  .div "container"
    (.div "output" (lines.map line)
      :: (prompt.toList.map fun p => .div "inputArea" [field p .idle]))

end PageShell.View
