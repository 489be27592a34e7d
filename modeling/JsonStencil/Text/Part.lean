/-!
# Texts with holes

A text with holes is a list of parts. Gathering joins neighbouring characters, so that no two texts
are next to each other and none is empty.
-/

namespace JsonStencil

/-- A piece of text, or a hole in it. -/
inductive Part (α : Type) where
  | text (s : String)
  | hole (a : α)
  deriving DecidableEq

namespace Part

variable {α : Type}

def map {β : Type} (f : α → β) : Part α → Part β
  | .text s => .text s
  | .hole a => .hole (f a)

def ofReversed (reversed : List Char) : List (Part α) :=
  if reversed.isEmpty then [] else [.text (.ofList reversed.reverse)]

/-- Joins neighbouring characters to texts, behind characters already met in reverse order. -/
def gather (reversed : List Char) : List (Char ⊕ α) → List (Part α)
  | [] => ofReversed reversed
  | .inl c :: rest => gather (c :: reversed) rest
  | .inr a :: rest => ofReversed reversed ++ .hole a :: gather [] rest

def fill (f : α → String) : List (Part α) → String
  | [] => ""
  | .text s :: parts => s ++ fill f parts
  | .hole a :: parts => f a ++ fill f parts

theorem ofReversed_reverse {s : String} (hs : s ≠ "") :
    (ofReversed s.toList.reverse : List (Part α)) = [.text s] := by
  simp [ofReversed, hs]

theorem gather_chars (cs reversed : List Char) (ps : List (Char ⊕ α)) :
    gather reversed (cs.map .inl ++ ps) = gather (cs.reverse ++ reversed) ps := by
  induction cs generalizing reversed with
  | nil => rfl
  | cons c cs ih => simp [gather, ih]

theorem map_gather {β : Type} (f : α → β) (reversed : List Char) (ps : List (Char ⊕ α)) :
    (gather reversed ps).map (Part.map f) = gather reversed (ps.map (Sum.map id f)) := by
  have hreversed (cs : List Char) : (ofReversed cs : List (Part α)).map (Part.map f) =
      ofReversed cs := by
    unfold ofReversed
    split <;> rfl
  induction ps generalizing reversed with
  | nil => exact hreversed reversed
  | cons p ps ih =>
    cases p with
    | inl c => exact ih _
    | inr a =>
      simp only [gather, List.map_append, List.map_cons, hreversed, ih]
      rfl

theorem hole_mem_gather {a : α} {ps : List (Char ⊕ α)} (reversed : List Char) :
    .hole a ∈ gather reversed ps ↔ .inr a ∈ ps := by
  have hreversed (cs : List Char) : .hole a ∉ (ofReversed cs : List (Part α)) := by
    unfold ofReversed
    split <;> simp
  induction ps generalizing reversed with
  | nil => simpa [gather] using hreversed reversed
  | cons p ps ih => cases p <;> simp [gather, ih, hreversed]

/-- Gathering leaves what is written for the characters and holes as it is. -/
theorem flatMap_gather {β : Type} {f : Part α → List β} {g : Char → List β}
    (h : ∀ s, f (.text s) = s.toList.flatMap g) (reversed : List Char) (ps : List (Char ⊕ α)) :
    (gather reversed ps).flatMap f =
      reversed.reverse.flatMap g ++ ps.flatMap (Sum.elim g fun a => f (.hole a)) := by
  have hreversed (cs : List Char) :
      (ofReversed cs : List (Part α)).flatMap f = cs.reverse.flatMap g := by
    unfold ofReversed
    split
    next hnil => simp [List.isEmpty_iff.1 hnil]
    next => simp [h]
  induction ps generalizing reversed with
  | nil => simp [gather, hreversed]
  | cons p ps ih => cases p <;> simp [gather, ih, hreversed]

end Part

end JsonStencil
