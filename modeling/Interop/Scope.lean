/-!
# Scopes

A scope says what the bodies around a place in a unit are.  It only grows on the way down: a body
adds its flags to the scope it stands in, and what follows the body is in the outer scope again.
-/

namespace Interop

/-- What surrounds a place.  Several can hold at once: a class in an enumeration is in both. -/
structure Scope where
  /-- in the body of an object that extends the interop marker type -/
  jsAnyModule : Bool := false
  /-- in the body of a class or trait that extends it -/
  jsAnyClass : Bool := false
  /-- in the body of any other class or trait, but for the enumeration class itself and for those
  that are refused where they stand -/
  hostClass : Bool := false
  /-- in a class or object that extends the enumeration class -/
  enumSubclass : Bool := false
  /-- in the enumeration class itself -/
  enumImpl : Bool := false
deriving DecidableEq, Inhabited

namespace Scope

/-- The top of a unit. -/
def root : Scope := {}

/-- The scope of a body with the flags `t` that stands in `s`. -/
def enter (s t : Scope) : Scope where
  jsAnyModule := s.jsAnyModule || t.jsAnyModule
  jsAnyClass := s.jsAnyClass || t.jsAnyClass
  hostClass := s.hostClass || t.hostClass
  enumSubclass := s.enumSubclass || t.enumSubclass
  enumImpl := s.enumImpl || t.enumImpl

/-- Every flag of `t` is set in `s`. -/
def contains (s t : Scope) : Bool := s.enter t = s

/-- Declarations that extend the marker type may stand here. -/
def allowJsAny (s : Scope) : Bool := !s.hostClass

/-- Only classes that extend the marker type are expected here: at the top, or in an object that
extends it. -/
def jsAnyClassOnly (s : Scope) : Bool := !s.jsAnyClass && s.allowJsAny

def inJsAny (s : Scope) : Bool := s.jsAnyClass || s.jsAnyModule

/-- Classes, traits and objects may be declared here. -/
def allowImplDef (s : Scope) : Bool := !s.inJsAny

/-- In an enumeration, but not in the enumeration class itself. -/
def inEnumSubclass (s : Scope) : Bool := s.enumSubclass && !s.enumImpl

def inEnumImpl (s : Scope) : Bool := s.enumImpl

@[simp] theorem enter_root (s : Scope) : s.enter root = s := by simp [enter, root]

theorem enter_assoc (s t u : Scope) : (s.enter t).enter u = s.enter (t.enter u) := by
  simp [enter, Bool.or_assoc]

theorem contains_enter (s t : Scope) : (s.enter t).contains t := by
  simp [contains, enter]

end Scope

end Interop
