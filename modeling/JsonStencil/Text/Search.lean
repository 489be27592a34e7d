/-!
# Searching texts

A delimiter cuts a text at its leftmost occurrence. Splitting cuts again in the part after the
delimiter, so occurrences never overlap and joining the parts gives the text back.
-/

namespace JsonStencil

/-- What follows `front` in a text that starts with it. -/
def dropFront? : List Char → List Char → Option (List Char)
  | [], cs => some cs
  | _ :: _, [] => none
  | p :: front, c :: cs => if p = c then dropFront? front cs else none

theorem dropFront?_eq_some_iff {front cs rest : List Char} :
    dropFront? front cs = some rest ↔ cs = front ++ rest := by
  fun_induction dropFront? front cs with
  | case1 cs => simp
  | case2 => simp
  | case3 p front cs ih => simp [ih]
  | case4 p front c cs h => simp [Ne.symm h]

def startsWith (front cs : List Char) : Bool := (dropFront? front cs).isSome

def cut? (delimiter : List Char) : List Char → Option (List Char × List Char)
  | [] => (dropFront? delimiter []).map ([], ·)
  | c :: cs =>
    match dropFront? delimiter (c :: cs) with
    | some after => some ([], after)
    | none => (cut? delimiter cs).map fun (before, after) => (c :: before, after)

theorem eq_append_of_cut? {delimiter cs before after : List Char}
    (h : cut? delimiter cs = some (before, after)) : cs = before ++ delimiter ++ after := by
  induction cs generalizing before with
  | nil =>
    simp only [cut?, Option.map_eq_some_iff, Prod.mk.injEq] at h
    obtain ⟨r, hr, rfl, rfl⟩ := h
    simpa using dropFront?_eq_some_iff.1 hr
  | cons c cs ih =>
    rw [cut?] at h
    split at h
    next r hr =>
      cases h
      simpa using dropFront?_eq_some_iff.1 hr
    next =>
      simp only [Option.map_eq_some_iff, Prod.mk.injEq, Prod.exists] at h
      obtain ⟨b, a, hb, rfl, rfl⟩ := h
      simp [ih hb]

theorem length_after_lt_of_cut? {delimiter cs before after : List Char} (hd : delimiter ≠ [])
    (h : cut? delimiter cs = some (before, after)) : after.length < cs.length := by
  have := congrArg List.length (eq_append_of_cut? h)
  have := List.length_pos_iff.2 hd
  simp only [List.length_append] at *
  omega

def occursIn (delimiter cs : List Char) : Bool := (cut? delimiter cs).isSome

/-- The parts of a text between the occurrences of a delimiter; the whole text when the delimiter
is empty. -/
def splitOn (delimiter cs : List Char) : List (List Char) :=
  if _ : delimiter = [] then [cs]
  else match _ : cut? delimiter cs with
    | none => [cs]
    | some (before, after) => before :: splitOn delimiter after
termination_by cs.length
decreasing_by exact length_after_lt_of_cut? ‹_› ‹_›

def replaceFirst (old new cs : List Char) : List Char :=
  match cut? old cs with
  | none => cs
  | some (before, after) => before ++ new ++ after

def byteLength : List Char → Nat
  | [] => 0
  | c :: cs => c.utf8Size + byteLength cs

@[simp] theorem byteLength_cons (c : Char) (cs : List Char) :
    byteLength (c :: cs) = c.utf8Size + byteLength cs := rfl

@[simp] theorem byteLength_append (cs ds : List Char) :
    byteLength (cs ++ ds) = byteLength cs + byteLength ds := by
  induction cs with
  | nil => exact (Nat.zero_add _).symm
  | cons c cs ih => rw [List.cons_append, byteLength_cons, ih, byteLength_cons, Nat.add_assoc]

/-- Cuts a text behind a number of bytes, unless the cut lies inside a character or behind the
end. -/
def splitBytes? (n : Nat) : List Char → Option (List Char × List Char)
  | [] => if n = 0 then some ([], []) else none
  | c :: cs =>
    if n = 0 then some ([], c :: cs)
    else if n < c.utf8Size then none
    else (splitBytes? (n - c.utf8Size) cs).map fun (front, back) => (c :: front, back)

def byteRange? (start stop : Nat) (cs : List Char) : Option (List Char) :=
  if stop < start then none
  else match splitBytes? start cs with
    | none => none
    | some (_, back) => (splitBytes? (stop - start) back).map (·.1)

end JsonStencil
