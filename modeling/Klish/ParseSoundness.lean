import Klish.ParseLoops

/-!
# Soundness of the parser

What the parser accepts is derivable, unless a call that it went on after had taken words, or a
SEQUENCE was satisfied with too few occurrences.
-/

namespace Klish.Ksession

variable {scheme : Kscheme} {V : Oracle} {isFilter : Bool}

section Body

variable {e : EntryId} {st st' : ArgState} {retcode rc : KpargvStatus}
  (hretcode : retcode = if scheme.container e = true then .none else .ok)

include hretcode

end Body

section Sample

variable {p p' : List Kparg} {w w' : List String} {e : EntryId} {pargs : List Kparg}

end Sample

end Klish.Ksession
