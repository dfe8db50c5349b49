import GodelWhile.Value

/-! # Stores

A store binds names to values. It keeps its names in the order in which they were first set: setting
a name again changes the value in its place. No name is bound twice. -/

namespace GodelWhile

namespace Bindings

/-- The value bound to a name. -/
def get? (x : String) : List (String × Value) → Option Value
  | [] => none
  | (y, v) :: rest => if y = x then some v else get? x rest

/-- Binds a name in its place, or at the end if it is new. -/
def insert (x : String) (v : Value) : List (String × Value) → List (String × Value)
  | [] => [(x, v)]
  | (y, w) :: rest => if y = x then (y, v) :: rest else (y, w) :: insert x v rest

/-- Binding a name keeps the names and their order, but for a new name at the end. -/
theorem names_insert (x : String) (v : Value) : ∀ l : List (String × Value),
    (insert x v l).map (·.1) =
      if x ∈ l.map (·.1) then l.map (·.1) else l.map (·.1) ++ [x]
  | [] => by simp [insert]
  | (y, w) :: rest => by
    by_cases h : y = x
    · simp [insert, h]
    · simp only [insert, h, if_false, List.map_cons, names_insert x v rest, List.mem_cons,
        Ne.symm h, false_or]
      split <;> simp

theorem nodup_names_insert (x : String) (v : Value) {l : List (String × Value)}
    (h : (l.map (·.1)).Nodup) : ((insert x v l).map (·.1)).Nodup := by
  rw [names_insert]
  split
  · exact h
  · rename_i hx
    rw [List.nodup_append]
    refine ⟨h, by simp, fun a ha b hb hab => ?_⟩
    simp only [List.mem_singleton] at hb
    exact hx (hb ▸ hab ▸ ha)

/-- Binding a name sets its value and leaves those of all other names alone. -/
theorem get?_insert (x y : String) (v : Value) : ∀ l : List (String × Value),
    get? y (insert x v l) = if x = y then some v else get? y l
  | [] => by simp [insert, get?]
  | (z, w) :: rest => by
    by_cases hz : z = x
    · subst hz
      by_cases hy : z = y <;> simp [insert, get?, hy]
    · simp only [insert, hz, if_false, get?, get?_insert x y v rest]
      by_cases hy : z = y
      · subst hy
        simp [Ne.symm hz]
      · simp [hy]

end Bindings

/-- The values of the variables, in the order in which the variables were first set. -/
structure Store where
  bindings : List (String × Value)
  nodup : (bindings.map (·.1)).Nodup
  deriving DecidableEq

namespace Store

/-- No variable is set. -/
def empty : Store := ⟨[], by simp⟩

/-- The names that are bound, in order. -/
def names (s : Store) : List String := s.bindings.map (·.1)

/-- The value bound to a name. -/
def get? (s : Store) (x : String) : Option Value := Bindings.get? x s.bindings

/-- The value of a variable: zero unless it was set. -/
def get (s : Store) (x : String) : Value := (s.get? x).getD .zero

/-- Sets a variable. -/
def insert (s : Store) (x : String) (v : Value) : Store :=
  ⟨Bindings.insert x v s.bindings, Bindings.nodup_names_insert x v s.nodup⟩

theorem get?_insert (s : Store) (x y : String) (v : Value) :
    (s.insert x v).get? y = if x = y then some v else s.get? y :=
  Bindings.get?_insert x y v s.bindings

theorem get_insert (s : Store) (x y : String) (v : Value) :
    (s.insert x v).get y = if x = y then v else s.get y := by
  rw [get, get?_insert]
  split <;> rfl

/-- Sets variables one after the other. -/
def insertAll (s : Store) (bs : List (String × Value)) : Store :=
  bs.foldl (fun s b => s.insert b.1 b.2) s

/-- The store that results from setting variables one after the other. -/
def ofList (bs : List (String × Value)) : Store := empty.insertAll bs

/-- How many names are bound. -/
def size (s : Store) : Nat := s.bindings.length

/-- One line per binding, as reports show it. -/
def bindingText (x : String) (v : Value) : String := x ++ " := " ++ v.render ++ "\n"

end Store

end GodelWhile
