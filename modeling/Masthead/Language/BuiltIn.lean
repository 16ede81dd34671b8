import Masthead.Language.Basic

namespace Masthead.Language

/-- A first line that names the interpreter of a script. -/
def interpreterLine : Text := "#![^\\r\\n]*(\\r\\n|\\n|\\r)?".toList

def referenceLines : Text := "(///\\s*<reference[^\\r\\n]*/>[ \\t]*(\\r\\n|\\n|\\r)?)+".toList

/-- The declaration and the document type of a markup file. -/
def markupProlog : Text :=
  "(?s)(<\\?xml.*?\\?>)?(\\s*<!DOCTYPE.*?>)?[ \\t]*(\\r\\n|\\n|\\r)?".toList

def scriptTag : Text := "<\\?php[ \\t]*(\\r\\n|\\n|\\r)?".toList

/-- A language for the given extensions, which are separated by blanks. -/
private def named (extensions : String) : Language := .ofExtensions (Text.words extensions.toList)

private def line (l : Language) (token : String) : Language := l.withLineComment token.toList

private def block (l : Language) (opener closer : String) : Language :=
  l.withBlockComment opener.toList closer.toList

private def region (l : Language) (opener closer : String) : Language :=
  l.withRegion opener.toList closer.toList

/-- The languages that are known without a configuration. -/
def builtIn : List Language := [
  (((named ".cs").line "//").block "/*" "*/").region "#region" "#endregion",
  ((named ".c .cpp .cxx .cc .h .hpp .hxx").line "//").block "/*" "*/",
  ((named ".vb").line "'").region "#Region" "#End Region",
  ((named ".fs .fsi .fsx").line "//").block "(*" "*)",
  ((named ".java .kt .kts .scala .groovy .swift .dart").line "//").block "/*" "*/",
  (((named ".js .jsx .ts .tsx .mjs .cjs").line "//").block "/*" "*/").withSkip referenceLines,
  ((named ".css .less .scss").line "//").block "/*" "*/",
  (named ".aspx .ascx .master").block "<%--" "--%>",
  (named ".htm .html .cshtml .vbhtml .vue .svg").block "<!--" "-->",
  ((named ".xml .xaml .resx .config .xsd .xsl .xslt .csproj .props .targets").block
    "<!--" "-->").withSkip markupProlog,
  ((named ".sql").line "--").block "/*" "*/",
  (((named ".ps1 .psm1 .psd1").line "#").block "<#" "#>").region "#region" "#endregion",
  ((named ".py .pyi .sh .bash .rb .pl .yaml .yml .toml .tf .r").line "#").withSkip
    interpreterLine,
  ((named ".rs .go .proto").line "//").block "/*" "*/",
  (((named ".php").line "//").block "/*" "*/").withSkip scriptTag,
  (named ".hs .lua").line "--"]

end Masthead.Language
