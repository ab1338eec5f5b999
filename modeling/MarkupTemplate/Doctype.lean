import MarkupTemplate.Node.Basic
import MarkupTemplate.Options.Basic
import MarkupTemplate.Text.Lower

/-!
# Document types

A document type line names the kind of declaration to write. Which kinds there are depends on the
format, and a name that a format does not know stands for its usual kind. The line may also ask for
an XML prolog, which only the closed form has.
-/

namespace MarkupTemplate.Doctype

/-- The kinds that a line may ask for. -/
def kinds : Format → List Text
  | .html5 => []
  | .html4 => ["strict", "frameset"]
  | .xhtml =>
    ["strict", "frameset", "5", "1.1", "basic",
     "mobile", "rdfa"]

/-- The usual kind of a format. -/
def usual : Format → Text
  | .html5 => "html"
  | .html4 => "transitional"
  | .xhtml => "transitional"

/-- The XML prolog with the encoding that is the second word, if there is one. -/
def prolog (words : List Text) : Text :=
  let encoding := match words with
    | _ :: encoding :: _ => encoding
    | _ => "utf-8"
  "<?xml version='1.0' encoding='" ++ encoding ++ "' ?>"

/-- The node for a document type line. -/
def node (format : Format) (text : Text) : Node :=
  let wanted := Text.toLower (Text.trim text)
  if (Text.after? "xml" wanted).isSome then
    match format with
    | .xhtml => .static (prolog (Text.words wanted))
    | _ => .static []
  else if (kinds format).contains wanted then .doctype wanted
  else .doctype (usual format)

/-- The declarations of a format. -/
def declarations : Format → List (Text × Text)
  | .html5 => [("html", "<!DOCTYPE html>")]
  | .html4 =>
    [("transitional",
      ("<!DOCTYPE HTML PUBLIC \"-//W3C//DTD HTML 4.01 Transitional//EN\" " ++
        "\"http://www.w3.org/TR/html4/loose.dtd\">").toList),
     ("strict",
      ("<!DOCTYPE HTML PUBLIC \"-//W3C//DTD HTML 4.01//EN\" " ++
        "\"http://www.w3.org/TR/html4/strict.dtd\">").toList),
     ("frameset",
      ("<!DOCTYPE HTML PUBLIC \"-//W3C//DTD HTML 4.01 Frameset//EN\" " ++
        "\"http://www.w3.org/TR/html4/frameset.dtd\">").toList)]
  | .xhtml =>
    [("1.1",
      ("<!DOCTYPE html PUBLIC \"-//W3C//DTD XHTML 1.1//EN\" " ++
        "\"http://www.w3.org/TR/xhtml11/DTD/xhtml11.dtd\">").toList),
     ("5", "<!DOCTYPE html>"),
     ("basic",
      ("<!DOCTYPE html PUBLIC \"-//W3C//DTD XHTML Basic 1.1//EN\" " ++
        "\"http://www.w3.org/TR/xhtml-basic/xhtml-basic11.dtd\">").toList),
     ("frameset",
      ("<!DOCTYPE html PUBLIC \"-//W3C//DTD XHTML 1.0 Frameset//EN\" " ++
        "\"http://www.w3.org/TR/xhtml1/DTD/xhtml1-frameset.dtd\">").toList),
     ("mobile",
      ("<!DOCTYPE html PUBLIC \"-//WAPFORUM//DTD XHTML Mobile 1.2//EN\" " ++
        "\"http://www.openmobilealliance.org/tech/DTD/xhtml-mobile12.dtd\">").toList),
     ("rdfa",
      ("<!DOCTYPE html PUBLIC \"-//W3C//DTD XHTML+RDFa 1.0//EN\" " ++
        "\"http://www.w3.org/MarkUp/DTD/xhtml-rdfa-1.dtd\">").toList),
     ("strict",
      ("<!DOCTYPE html PUBLIC \"-//W3C//DTD XHTML 1.0 Strict//EN\" " ++
        "\"http://www.w3.org/TR/xhtml1/DTD/xhtml1-strict.dtd\">").toList),
     ("transitional",
      ("<!DOCTYPE html PUBLIC \"-//W3C//DTD XHTML 1.0 Transitional//EN\" " ++
        "\"http://www.w3.org/TR/xhtml1/DTD/xhtml1-transitional.dtd\">").toList)]

/-- The declaration of a kind. -/
def declaration? (format : Format) (kind : Text) : Option Text :=
  (declarations format).lookup kind

end MarkupTemplate.Doctype
