import EnvScript.Text

/-!
# Contexts

The variables of an evaluation with their values, in the order in which they were first assigned.
Assigning a name again changes its value and keeps its place.
-/

namespace EnvScript

/-- Gives `name` the value `value` in a list of bindings. -/
def assignIn (name value : Text) : List (Text × Text) → List (Text × Text)
  | [] => [(name, value)]
  | (n, v) :: rest =>
    if n = name then (n, value) :: rest else (n, v) :: assignIn name value rest

theorem map_fst_assignIn (name value : Text) (entries : List (Text × Text)) :
    (assignIn name value entries).map Prod.fst =
      if name ∈ entries.map Prod.fst then entries.map Prod.fst
      else entries.map Prod.fst ++ [name] := by
  induction entries with
  | nil => simp [assignIn]
  | cons e rest ih =>
    obtain ⟨n, v⟩ := e
    by_cases h : n = name
    · simp [assignIn, h]
    · simp only [assignIn, if_neg h, List.map_cons, ih, List.mem_cons, Ne.symm h, false_or]
      split <;> simp

theorem nodup_assignIn (name value : Text) {entries : List (Text × Text)}
    (h : (entries.map Prod.fst).Nodup) : ((assignIn name value entries).map Prod.fst).Nodup := by
  rw [map_fst_assignIn]
  split
  · exact h
  · rename_i hn
    refine List.nodup_append.mpr ⟨h, by simp, fun a ha b hb => ?_⟩
    rintro rfl
    exact hn (List.mem_singleton.mp hb ▸ ha)

structure Context where
  entries : List (Text × Text)
  distinct : (entries.map Prod.fst).Nodup
  deriving DecidableEq, Repr

namespace Context

def empty : Context := ⟨[], List.Pairwise.nil⟩

def names (c : Context) : List Text := c.entries.map Prod.fst

def get? (c : Context) (name : Text) : Option Text := c.entries.lookup name

def set (c : Context) (name value : Text) : Context :=
  ⟨assignIn name value c.entries, nodup_assignIn name value c.distinct⟩

/-- Assigns the pairs in their order. -/
def assign (c : Context) (pairs : List (Text × Text)) : Context :=
  pairs.foldl (fun c p => c.set p.1 p.2) c

def ofPairs (pairs : List (Text × Text)) : Context := empty.assign pairs

theorem names_set (c : Context) (name value : Text) :
    (c.set name value).names = if name ∈ c.names then c.names else c.names ++ [name] :=
  map_fst_assignIn name value c.entries

theorem get?_set (c : Context) (name value x : Text) :
    (c.set name value).get? x = if x = name then some value else c.get? x := by
  obtain ⟨entries, _⟩ := c
  simp only [get?, set]
  induction entries with
  | nil =>
    by_cases hx : x = name
    · simp [assignIn, hx]
    · simp [assignIn, List.lookup_cons, beq_eq_false_iff_ne.mpr hx, hx]
  | cons e rest ih =>
    obtain ⟨n, v⟩ := e
    have ih := ih (by simp_all)
    by_cases h : n = name
    · subst h
      by_cases hx : x = n
      · simp [assignIn, hx]
      · simp [assignIn, List.lookup_cons, beq_eq_false_iff_ne.mpr hx, hx]
    · by_cases hx : x = n
      · subst hx
        simp [assignIn, h]
      · simp only [assignIn, if_neg h, List.lookup_cons, beq_eq_false_iff_ne.mpr hx]
        exact ih

theorem assign_append (c : Context) (pairs more : List (Text × Text)) :
    c.assign (pairs ++ more) = (c.assign pairs).assign more := List.foldl_append

theorem get?_assign_of_notMem {name : Text} {pairs : List (Text × Text)}
    (h : name ∉ pairs.map Prod.fst) (c : Context) : (c.assign pairs).get? name = c.get? name := by
  induction pairs generalizing c with
  | nil => rfl
  | cons pair pairs ih =>
    rw [List.map_cons, List.mem_cons, not_or] at h
    exact (ih h.2 _).trans ((c.get?_set _ _ _).trans (if_neg h.1))

/-- What was there before does not matter for a name that is assigned. -/
theorem get?_assign_of_mem {name : Text} {pairs : List (Text × Text)}
    (h : name ∈ pairs.map Prod.fst) (c c' : Context) :
    (c.assign pairs).get? name = (c'.assign pairs).get? name := by
  induction pairs generalizing c c' with
  | nil => exact absurd h List.not_mem_nil
  | cons pair pairs ih =>
    by_cases hlater : name ∈ pairs.map Prod.fst
    · exact ih hlater _ _
    · have hname : name = pair.1 := by simpa [hlater] using h
      have hfirst : ∀ d : Context, (d.assign (pair :: pairs)).get? name = some pair.2 := fun d =>
        (get?_assign_of_notMem hlater _).trans ((d.get?_set _ _ _).trans (if_pos hname))
      rw [hfirst c, hfirst c']

end Context

end EnvScript
