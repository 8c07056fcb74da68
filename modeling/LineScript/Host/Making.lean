import LineScript.World.Frames

/-!
# Making the values a host describes

A description becomes a value whose containers are new. A name stands for a value that was made
before.
-/

namespace LineScript

namespace World

mutual

/-- Makes the value of a description. -/
def make (known : List (String × Value)) : Description → World → Value × World
  | .nil, w => (.nil, w)
  | .bool b, w => (.bool b, w)
  | .number x, w => (.number x, w)
  | .string s, w => (.string s, w)
  | .list items, w =>
    let made := makeList known items w
    made.2.newList made.1
  | .map entries, w =>
    let made := makeEntries known entries w
    made.2.newMap (.ofEntries made.1)
  | .instanceMap entries, w =>
    let made := makeEntries known entries w
    made.2.newMap (MapObject.ofEntries made.1).instantiate
  | .named name, w => (((known.find? (fun k => k.1 == name)).map (·.2)).getD .nil, w)
  | .function name parameters action, w =>
    let made := makeEntries known parameters w
    made.2.newFunction (.host name made.1 action)
  | .interface name functions, w =>
    let made := makeFunctions known functions w
    made.2.newInterface ⟨name, .ofList made.1⟩

/-- Makes the values of descriptions from left to right. -/
def makeList (known : List (String × Value)) : List Description → World → List Value × World
  | [], w => ([], w)
  | d :: ds, w =>
    let v := make known d w
    let vs := makeList known ds v.2
    (v.1 :: vs.1, vs.2)

/-- Makes the values of described entries from left to right. -/
def makeEntries (known : List (String × Value)) :
    List (String × Description) → World → List (String × Value) × World
  | [], w => ([], w)
  | (key, d) :: ds, w =>
    let v := make known d w
    let vs := makeEntries known ds v.2
    ((key, v.1) :: vs.1, vs.2)

/-- Makes described functions from left to right. -/
def makeFunctions (known : List (String × Value)) :
    List (String × List (String × Description) × HostAction) → World →
      List (String × Value) × World
  | [], w => ([], w)
  | (name, parameters, action) :: fs, w =>
    let made := makeEntries known parameters w
    let f := made.2.newFunction (.host name made.1 action)
    let rest := makeFunctions known fs f.2
    ((name, f.1) :: rest.1, rest.2)

end

end World

end LineScript
