/-!
# Options

Options are given as words, and a word has to be spelled exactly.
-/

namespace Interop

/-- What the pass can be told. -/
structure Options where
  /-- Put a class literal in place of an unresolved type token instead of reporting it. -/
  foldTokens : Bool := false
deriving DecidableEq, Inhabited

namespace Options

/-- A word that is no option. -/
structure Unknown where
  word : String
deriving DecidableEq, Inhabited

def Unknown.message (e : Unknown) : String :=
  s!"unknown interop preparation option `{e.word}`"

/-- Read a list of words.  The first one that is no option is the answer. -/
def parse (words : List String) : Except Unknown Options :=
  words.foldlM (fun options word =>
    if word = "fixClassOf" then .ok { options with foldTokens := true } else .error ⟨word⟩) {}

end Options

end Interop
