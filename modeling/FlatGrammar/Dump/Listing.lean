import FlatGrammar.Grammar.Basic
import FlatGrammar.Style

/-! # Listings

The rules of a grammar in the terminal, the rules of each kind under a title.
-/
namespace FlatGrammar

def Rule.listing (r : Rule) (colors : Bool) : String :=
  Style.header.paint colors ("[" ++ r.id ++ "]") ++ " " ++ symbolText r.symbol ++ " "
    ++ Style.emphasis.paint colors "::=" ++ " " ++ r.expr.outlineText

/-- The lines for the rules of one kind, none if there is no such rule. -/
def listingPart (rules : List Rule) (kind : Kind) (title : String) (colors : Bool) :
    List String :=
  match rules.filter (·.kind == kind) with
  | [] => []
  | rs => Headline.text { header := title } .header colors :: rs.map (·.listing colors)

def Grammar.listing (g : Grammar) (colors : Bool) : List String :=
  Headline.text { header := "*** GRAMMAR ***", newLine := true } .attention colors ::
    listingPart g.rules .rule "Rules:" colors
    ++ listingPart g.rules .terminal "Terminals:" colors
    ++ listingPart g.rules .pass "Pass:" colors

end FlatGrammar
