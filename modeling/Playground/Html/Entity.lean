import Playground.Text.Replace

/-! Character references in attribute values: reading the seven that are known, and the two that
are written. -/

namespace Playground.Html.Entity

/-- The known references in the order they are decoded; `&amp;` is last, so what it yields is
never read again. -/
def table : List (String × String) :=
  [("&quot;", "\""), ("&#34;", "\""), ("&apos;", "'"), ("&#39;", "'"), ("&lt;", "<"),
    ("&gt;", ">"), ("&amp;", "&")]

/-- Replaces each known reference by its character, one reference of the table after the other. -/
def decode (raw : String) : String :=
  table.foldl (fun text (reference, character) => replaceText text reference character) raw

def escapeAttribute (value : String) : String :=
  replaceText (replaceText value "&" "&amp;") "\"" "&quot;"

end Playground.Html.Entity
