import Ratarmount.MountSource

/-!
# Names the write overlay keeps for itself

Bookkeeping files of the overlay folder are hidden from the mount and refused by
it; the control folder is refused while it is served.
-/

namespace Ratarmount.Overlay

open Mount (Path components)

def hiddenDb : Str := ".ratarmount.overlay.sqlite".toList

def overlayMarker : Str := ".ratarmount-overlay.used".toList

def sealedMarker : Str := ".ratarmount-sealed".toList

def sealCommitLock : Str := ".ratarmount.overlay.seal-commit.lock".toList

def cowStagingName : Str := ".ratarmount.overlay.cow-".toList

def controlFolder : Str := ".ratarmount-control".toList

def asciiLower (s : Str) : Str :=
  s.map fun ch => if 'A' ≤ ch ∧ ch ≤ 'Z' then Char.ofNat (ch.toNat + 32) else ch

def hasAsciiStart (name start : Str) : Bool :=
  start.length ≤ name.length && asciiLower (name.take start.length) = asciiLower start

def eqIgnoreAsciiCase (a b : Str) : Bool := asciiLower a = asciiLower b

def isOverlayInternalName (name : Str) : Bool :=
  hasAsciiStart name hiddenDb || hasAsciiStart name cowStagingName || eqIgnoreAsciiCase name sealedMarker ||
    eqIgnoreAsciiCase name sealCommitLock || eqIgnoreAsciiCase name overlayMarker

def isOverlayInternalPath (path : Str) : Bool := (path.splitOn '/').any isOverlayInternalName

def Reserved (p : Path) : Bool := p.any isOverlayInternalName

def isControlReservedPath (p : Path) : Bool := p.head? = some controlFolder

end Ratarmount.Overlay
