import ArgFill.Text.Basic

/-!
# Paths

A path is a text of parts with slashes between them. An empty part and the part `.` stay where they
are, so one file has many paths.

* `Path.plain` : a path without the parts that stay where they are. A name is its own plain path
  (`plain_eq_self`);
* `Path.endsInFolder` : can only a folder be at the end of a path?
* `Path.ways` : the folders that a path goes through.
-/

namespace ArgFill.Path

def parts : Text → List Text
  | [] => [[]]
  | c :: t =>
    if c = '/' then [] :: parts t
    else
      match parts t with
      | [] => [[c]]
      | part :: others => (c :: part) :: others

def stays (part : Text) : Bool := part = [] || part = ['.']

/-- The parts of a path that lead on. -/
def steps (path : Text) : List Text := (parts path).filter fun part => !stays part

/-- The plain path of some steps, from the root if the path in question begins there. -/
def ofSteps (path : Text) (steps : List Text) : Text :=
  let way := List.intercalate ['/'] steps
  if path.head? = some '/' then '/' :: way else way

def plain (path : Text) : Text := ofSteps path (steps path)

/-- A path that ends with a part that stays where it is ends in a folder. -/
def endsInFolder (path : Text) : Bool := (parts path).getLast?.any stays

def ways (path : Text) : List Text :=
  (List.range (steps path).length).map fun count => ofSteps path ((steps path).take count)

theorem parts_of_not_mem {name : Text} (h : '/' ∉ name) : parts name = [name] := by
  induction name with
  | nil => rfl
  | cons c t ih =>
    have hc : c ≠ '/' := fun e => h (e ▸ List.mem_cons_self)
    have ht : '/' ∉ t := fun m => h (List.mem_cons_of_mem c m)
    simp [parts, hc, ih ht]

theorem plain_eq_self {name : Text} (h : '/' ∉ name) (hs : stays name = false) :
    plain name = name := by
  have hc : name.head? ≠ some '/' := fun e => h (List.mem_of_mem_head? (by simp [e]))
  simp [plain, ofSteps, steps, parts_of_not_mem h, hs, hc, List.intercalate]

end ArgFill.Path
