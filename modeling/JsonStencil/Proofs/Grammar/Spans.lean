import JsonStencil.Proofs.Grammar.Soundness
import JsonStencil.Proofs.Token.Layout

/-!
# The spans of a syntax tree

Every reader makes nodes with spans of characters that it reads, and puts the nodes it is given
inside the nodes it makes. The code of a template literal is read from tokens moved to where they
stand, so its nodes have their places in the whole text, too.
-/

namespace JsonStencil

namespace Expr

/-- A node of a syntax tree with a span: an expression or an entry of an object. -/
inductive Node where
  | expr (e : Expr)
  | entry (x : ObjectEntry Expr)

namespace Node

def span : Node → Span
  | .expr e => e.span
  | .entry x => x.span

def children : Node → List Node
  | .expr (.template parts _) =>
    parts.flatMap fun part => match part with
      | .text _ => []
      | .hole e => [.expr e]
  | .expr (.array items _) => items.map .expr
  | .expr (.object entries _) => entries.map .entry
  | .expr (.call callee args _) => .expr callee :: args.map .expr
  | .expr (.member owner _ _) => [.expr owner]
  | .expr (.index owner position _) => [.expr owner, .expr position]
  | .expr (.unary _ operand _) => [.expr operand]
  | .expr (.binary _ left right _) => [.expr left, .expr right]
  | .expr (.logical _ left right _) => [.expr left, .expr right]
  | .expr (.conditional condition onTrue onFalse _) =>
    [.expr condition, .expr onTrue, .expr onFalse]
  | .expr _ => []
  | .entry ⟨.named _, value, _⟩ => [.expr value]
  | .entry ⟨.computed key, value, _⟩ => [.expr key, .expr value]

theorem mem_children_template {parts : List (Part Expr)} {span : Span} {m : Node}
    (h : m ∈ (Node.expr (.template parts span)).children) : ∃ e, .hole e ∈ parts ∧ m = .expr e := by
  obtain ⟨part, hpart, hm⟩ := List.mem_flatMap.1 h
  cases part with
  | text s => cases hm
  | hole e => exact ⟨e, hpart, List.mem_singleton.1 hm⟩

/-- A node inside another one, at any depth. -/
inductive Within : Node → Node → Prop
  | refl (n : Node) : Within n n
  | child {inner m n : Node} : m ∈ n.children → Within inner m → Within inner n

/-- The nodes of the tree have spans of characters of the text, one inside the other. -/
inductive Placed (cs : List Char) : Nat → Nat → Node → Prop
  | intro {lo hi i j : Nat} {n : Node} : lo ≤ i → i < j → j ≤ hi → n.span = .slice cs i j →
      (∀ m ∈ n.children, Placed cs i j m) → Placed cs lo hi n

namespace Placed

variable {cs : List Char} {lo hi : Nat} {n : Node}

theorem mono (h : Placed cs lo hi n) {lo' hi' : Nat} (hlo : lo' ≤ lo) (hhi : hi ≤ hi') :
    Placed cs lo' hi' n := by
  cases h with
  | intro hi hij hj hspan hchildren =>
    exact .intro (Nat.le_trans hlo hi) hij (Nat.le_trans hj hhi) hspan hchildren

theorem exists_slice (h : Placed cs lo hi n) :
    ∃ i j, lo ≤ i ∧ i < j ∧ j ≤ hi ∧ n.span = .slice cs i j ∧ Placed cs i j n := by
  cases h with
  | intro hi hij hj hspan hchildren =>
    exact ⟨_, _, hi, hij, hj, hspan, .intro (Nat.le_refl _) hij (Nat.le_refl _) hspan hchildren⟩

theorem lt (h : Placed cs lo hi n) : lo < hi := by
  obtain ⟨i, j, hi, hij, hj, -, -⟩ := h.exists_slice
  omega

theorem of_token {i j : Nat} {l : Lexeme} (hl : l.At cs i j) (hlo : lo ≤ i) (hhi : j ≤ hi)
    (hspan : n.span = l.span) (hchildren : ∀ m ∈ n.children, Placed cs i j m) :
    Placed cs lo hi n :=
  .intro hlo hl.lt hhi (hspan.trans hl.span_eq) hchildren

theorem of_merge {i j k l : Nat} {first last : Span} (hspan : n.span = first.merge last)
    (hfirst : first = .slice cs i j) (hlast : last = .slice cs k l) (hlo : lo ≤ i) (hij : i < j)
    (hik : i ≤ k) (hjl : j ≤ l) (hhi : l ≤ hi) (hchildren : ∀ m ∈ n.children, Placed cs i l m) :
    Placed cs lo hi n := by
  refine .intro hlo (Nat.lt_of_lt_of_le hij hjl) hhi ?_ hchildren
  rw [hspan, hfirst, hlast, Span.merge_slice hik hjl]

theorem of_within (h : Placed cs lo hi n) {m : Node} (hm : m.Within n) : Placed cs lo hi m := by
  induction hm generalizing lo hi with
  | refl => exact h
  | child hchild _ ih =>
    cases h with
    | intro hi hij hj hspan hchildren =>
      exact (ih (hchildren _ hchild)).mono hi hj

end Placed

end Node

end Expr

namespace Grammar

open JsonStencil.Expr (Node)
open JsonStencil.Expr.Node (Placed)

variable {α : Type} {cs : List Char} {lo hi : Nat} {ls rest : List Lexeme}

/-- What the reader takes from tokens laid out in the text has its place in front of the rest. -/
def Places (cs : List Char) (view : α → Node) (reader : TokenReader α) : Prop :=
  ∀ ⦃hi lo : Nat⦄ ⦃ls : List Lexeme⦄ ⦃a : α⦄ ⦃rest : List Lexeme⦄, LaidOut cs hi lo ls →
    reader ls = .ok (a, rest) → ∃ mid, Placed cs lo mid (view a) ∧ LaidOut cs hi mid rest

theorem tooDeep_places {view : α → Node} : Places cs view tooDeep := by
  intro hi lo ls a rest hls h
  cases h

section Levels

/-- An operator of a level makes a node of its operands that spans both. -/
def Joiner.Spans (join? : Joiner) : Prop :=
  ∀ ⦃t f⦄, join? t = some f → ∀ a b : Expr,
    (f a b).span = a.span.merge b.span ∧ (Node.expr (f a b)).children = [.expr a, .expr b]

theorem spans_of_mem_joiners {join? : Joiner} (h : join? ∈ joiners) : join?.Spans := by
  simp only [joiners, List.mem_cons, List.not_mem_nil, or_false] at h
  intro t f hf a b
  cases t with
  | symbol s =>
    rcases h with rfl | rfl | rfl | rfl | rfl | rfl | rfl <;> cases s <;> cases hf <;>
      exact ⟨rfl, rfl⟩
  | _ => rcases h with rfl | rfl | rfl | rfl | rfl | rfl | rfl <;> cases hf

/-- A node from one node to another holds what stands between these. -/
theorem placed_of_operands {first last : Expr} {n : Node} {mid mid' : Nat}
    (hfirst : Placed cs lo mid (.expr first)) (hlast : Placed cs mid' hi (.expr last))
    (hmid : mid ≤ mid') (hspan : n.span = first.span.merge last.span)
    (hchildren : ∀ m ∈ n.children, m = .expr first ∨ m = .expr last ∨ Placed cs mid mid' m) :
    Placed cs lo hi n := by
  obtain ⟨i, j, hloi, hij, hjm, hfspan, hfirst'⟩ := hfirst.exists_slice
  obtain ⟨k, l, hmk, hkl, hlh, hlspan, hlast'⟩ := hlast.exists_slice
  refine .of_merge hspan hfspan hlspan hloi hij (by omega) (by omega) hlh fun m hm => ?_
  rcases hchildren m hm with rfl | rfl | hm
  · exact hfirst'.mono (Nat.le_refl _) (by omega)
  · exact hlast'.mono (by omega) (Nat.le_refl _)
  · exact hm.mono (by omega) (by omega)

variable {operand : TokenReader Expr} {join? : Joiner}

theorem LevelRead.places {e : Expr} (h : LevelRead operand join? ls e rest) (hj : join?.Spans)
    (ho : Places cs .expr operand) (hls : LaidOut cs hi lo ls) :
    ∃ mid, Placed cs lo mid (.expr e) ∧ LaidOut cs hi mid rest := by
  induction h with
  | operand h => exact ho hls h
  | @join left right _ _ _ _ _ hf hright ih =>
    obtain ⟨mid, hleft, hl⟩ := ih
    obtain ⟨i, j, hlo, hat, hmid⟩ := hl.uncons
    obtain ⟨mid', hplaced, hrest⟩ := ho hmid hright
    obtain ⟨hspan, hchildren⟩ := hj hf left right
    have hlt := hat.lt
    refine ⟨mid', placed_of_operands hleft hplaced (by omega) hspan fun m hm => ?_, hrest⟩
    rw [hchildren] at hm
    simp only [List.mem_cons, List.not_mem_nil, or_false] at hm
    exact hm.imp_right .inl

theorem level_places (hj : join?.Spans) (ho : Places cs .expr operand) :
    Places cs .expr (level operand join?) :=
  fun _ _ _ _ _ hls h => (levelRead_of_level h).places hj ho hls

theorem binaryLevels_places (ho : Places cs .expr operand) :
    Places cs .expr (binaryLevels operand) :=
  binaryLevels_induction (motive := fun reader _ => Places cs .expr reader) (U := Phrases.Nothing)
    ho fun _ hj _ _ h => level_places (spans_of_mem_joiners hj) h

end Levels

theorem conditional_places {unary branch : TokenReader Expr} (hu : Places cs .expr unary)
    (hb : Places cs .expr branch) : Places cs .expr (conditional unary branch) := by
  intro hi lo ls e rest hls h
  cases conditionalRead_of_conditional h with
  | condition hc => exact binaryLevels_places hu hls hc
  | choice hc hx hy =>
    obtain ⟨mid, hcond, hls'⟩ := binaryLevels_places hu hls hc
    obtain ⟨i, j, hmid, hquestion, hls''⟩ := hls'.uncons
    obtain ⟨mid', hx', hr⟩ := hb hls'' hx
    obtain ⟨i', j', hmid', hcolon, hr'⟩ := hr.uncons
    obtain ⟨mid'', hy', hrest⟩ := hb hr' hy
    have hlt := hquestion.lt
    have hlt' := hcolon.lt
    have hxlt := hx'.lt
    refine ⟨mid'', placed_of_operands hcond hy' (by omega) rfl fun m hm => ?_, hrest⟩
    simp only [Node.children, List.mem_cons, List.not_mem_nil, or_false] at hm
    rcases hm with rfl | rfl | rfl
    · exact .inl rfl
    · exact .inr (.inr (hx'.mono (by omega) (by omega)))
    · exact .inr (.inl rfl)

theorem ItemsRead.places {view : α → Node} {item : TokenReader α} {as : List α}
    (h : ItemsRead item ls as rest) (hi' : Places cs view item) (hls : LaidOut cs hi lo ls) :
    ∃ mid, lo ≤ mid ∧ (∀ a ∈ as, Placed cs lo mid (view a)) ∧ LaidOut cs hi mid rest := by
  induction h generalizing lo with
  | nil ls => exact ⟨lo, Nat.le_refl _, nofun, hls⟩
  | single ha =>
    obtain ⟨mid, hplaced, hrest⟩ := hi' hls ha
    exact ⟨mid, Nat.le_of_lt hplaced.lt, List.forall_mem_singleton.2 hplaced, hrest⟩
  | cons ha _ ih =>
    obtain ⟨mid, hplaced, hls'⟩ := hi' hls ha
    obtain ⟨i, j, hmid, hcomma, hls''⟩ := hls'.uncons
    obtain ⟨mid', hle, has, hrest⟩ := ih hls''
    have hlt := hplaced.lt
    have hlt' := hcomma.lt
    refine ⟨mid', by omega, List.forall_mem_cons.2 ⟨?_, fun b hb => ?_⟩, hrest⟩
    · exact hplaced.mono (Nat.le_refl _) (by omega)
    · exact (has b hb).mono (by omega) (Nat.le_refl _)

/-- What closes a list of items stands behind all of them. -/
theorem ItemsRead.places_closed {view : α → Node} {item : TokenReader α} {as : List α} {l : Lexeme}
    (h : ItemsRead item ls as (l :: rest)) (hi' : Places cs view item) (hls : LaidOut cs hi lo ls) :
    ∃ i j, lo ≤ i ∧ l.At cs i j ∧ (∀ a ∈ as, Placed cs lo i (view a)) ∧ LaidOut cs hi j rest := by
  obtain ⟨mid, hle, has, hls'⟩ := h.places hi' hls
  obtain ⟨i, j, hmid, hl, hrest⟩ := hls'.uncons
  exact ⟨i, j, Nat.le_trans hle hmid, hl, fun a ha => (has a ha).mono (Nat.le_refl _) hmid, hrest⟩

section Sub

variable {sub : TokenReader Expr}

/-- The span of a key starts an entry, and a computed key stands behind its bracket. -/
theorem entryKey_places (hs : Places cs .expr sub) {key : EntryKey} (hls : LaidOut cs hi lo ls)
    (h : entryKey sub ls = .ok (key, rest)) :
    ∃ i j mid, lo ≤ i ∧ i < j ∧ j ≤ mid ∧ key.span = .slice cs i j ∧
      ((∃ name, key.key = .named name) ∨
        ∃ e, key.key = .computed e ∧ key.shorthand = none ∧ Placed cs j mid (.expr e)) ∧
      LaidOut cs hi mid rest := by
  cases keyRead_of_entryKey h with
  | name =>
    obtain ⟨i, j, hlo, hl, hrest⟩ := hls.uncons
    exact ⟨i, j, j, hlo, hl.lt, Nat.le_refl _, hl.span_eq, .inl ⟨_, rfl⟩, hrest⟩
  | computed he =>
    obtain ⟨i, j, hlo, hl, hls'⟩ := hls.uncons
    obtain ⟨mid, hplaced, hls''⟩ := hs hls' he
    obtain ⟨i', j', hmid, hlast, hrest⟩ := hls''.uncons
    have hplaced' := hplaced.mono (Nat.le_refl _) (Nat.le_trans hmid (Nat.le_of_lt hlast.lt))
    exact ⟨i, j, j', hlo, hl.lt, Nat.le_of_lt hplaced'.lt, hl.span_eq,
      .inr ⟨_, rfl, rfl, hplaced'⟩, hrest⟩

theorem entry_places (hs : Places cs .expr sub) : Places cs .entry (entry sub) := by
  intro hi lo ls x rest hls h
  obtain ⟨⟨key, ls'⟩, hkey, h'⟩ := bind_eq_ok_iff.1 h
  obtain ⟨⟨e, r⟩, hvalue, h''⟩ := bind_eq_ok_iff.1 h'
  cases h''
  obtain ⟨i, j, mid, hlo, hij, hjm, hspan, hcases, hls'⟩ := entryKey_places hs hls hkey
  rcases entryValue_cases hvalue with ⟨rfl, name, hname, rfl⟩ | ⟨colon, r, rfl, hsub⟩
  · -- a name that stands for its own value has the span of the entry
    obtain ⟨name', hkey'⟩ | ⟨k, -, hnone, -⟩ := hcases
    · have hplaced : Placed cs i j (.expr (.identifier name key.span)) :=
        .intro (Nat.le_refl _) hij (Nat.le_refl _) hspan nofun
      refine ⟨mid, .of_merge rfl hspan hspan hlo hij (Nat.le_refl _) (Nat.le_refl _) hjm ?_, hls'⟩
      rw [hkey']
      exact List.forall_mem_singleton.2 hplaced
    · rw [hnone] at hname
      cases hname
  · obtain ⟨i', j', hmid, hcolon, hls''⟩ := hls'.uncons
    obtain ⟨mid', hplaced, hrest⟩ := hs hls'' hsub
    obtain ⟨k, l, hjk, hkl, hlm, hvspan, hplaced'⟩ := hplaced.exists_slice
    have hlt := hcolon.lt
    refine ⟨mid', .of_merge rfl hspan hvspan hlo hij (by omega) (by omega) hlm ?_, hrest⟩
    have hvalue' := hplaced'.mono (show i ≤ k by omega) (Nat.le_refl l)
    obtain ⟨name, hkey'⟩ | ⟨c, hkey', -, hc⟩ := hcases
    · rw [hkey']
      exact List.forall_mem_singleton.2 hvalue'
    · rw [hkey']
      exact List.forall_mem_cons.2
        ⟨hc.mono (by omega) (by omega), List.forall_mem_singleton.2 hvalue'⟩

theorem PartsRead.places {chunks : List TemplateChunk} {parts : List (Part Expr)} {i j : Nat}
    (h : PartsRead sub chunks parts) (hs : Places cs .expr sub)
    (hholes : ∀ code, .hole code ∈ chunks → ∃ a b, i ≤ a ∧ a ≤ b ∧ b ≤ j ∧
      code.span = .slice cs a b ∧ code.source.toList = (cs.drop a).take (b - a)) :
    ∀ e, .hole e ∈ parts → Placed cs i j (.expr e) := by
  intro e he
  obtain ⟨code, ts, hcode, hts, hread⟩ := h.exists_code he
  obtain ⟨a, b, hia, hab, hbj, hspan, hsource⟩ := hholes code hcode
  obtain ⟨mid, hplaced, hrest⟩ := hs (LaidOut.of_code hab hspan hsource hts) hread
  exact hplaced.mono hia (Nat.le_trans hrest.le hbj)

theorem Atomic.span_eq {span : Span} {t : Token} {e : Expr} (h : Atomic span t e) :
    e.span = span := by
  cases h <;> rfl

theorem Atomic.children_eq {span : Span} {t : Token} {e : Expr} (h : Atomic span t e) :
    (Node.expr e).children = [] := by
  cases h <;> rfl

/-- A node from one token to another holds what stands between these. -/
theorem placed_of_brackets {i j k l : Nat} {n : Node} {first : Lexeme} {last : Span}
    (hfirst : first.At cs i j) (hlo : lo ≤ i) (hjk : j ≤ k) (hkl : k < l)
    (hlast : last = .slice cs k l) (hhi : l ≤ hi) (hspan : n.span = first.span.merge last)
    (hchildren : ∀ m ∈ n.children, Placed cs j k m) : Placed cs lo hi n := by
  have hij := hfirst.lt
  refine .of_merge hspan hfirst.span_eq hlast hlo hij (by omega) (by omega) hhi fun m hm => ?_
  exact (hchildren m hm).mono (Nat.le_of_lt hij) (Nat.le_of_lt hkl)

theorem primary_places (hs : Places cs .expr sub) : Places cs .expr (primary sub) := by
  intro hi lo ls e rest hls h
  cases primaryRead_of_primary h with
  | atom _ hatom =>
    obtain ⟨i, j, hlo, hl, hrest⟩ := hls.uncons
    refine ⟨j, .of_token hl hlo (Nat.le_refl _) hatom.span_eq ?_, hrest⟩
    rw [hatom.children_eq]
    nofun
  | @template chunks _ _ _ hparts =>
    obtain ⟨i, j, hlo, hl, hrest⟩ := hls.uncons
    have hholes := hparts.places hs fun code => hl.holes chunks code rfl
    refine ⟨j, .of_token hl hlo (Nat.le_refl _) rfl fun m hm => ?_, hrest⟩
    obtain ⟨e, he, rfl⟩ := Node.mem_children_template hm
    exact hholes e he
  | group he =>
    obtain ⟨i, j, hlo, hl, hls'⟩ := hls.uncons
    obtain ⟨mid, hplaced, hls''⟩ := hs hls' he
    obtain ⟨i', j', hmid, hlast, hrest⟩ := hls''.uncons
    have hlt := hl.lt
    have hlt' := hlast.lt
    exact ⟨j', hplaced.mono (by omega) (by omega), hrest⟩
  | array hes =>
    obtain ⟨i, j, hlo, hl, hls'⟩ := hls.uncons
    obtain ⟨k, l, hjk, hlast, hes', hrest⟩ := hes.places_closed hs hls'
    refine ⟨l, placed_of_brackets hl hlo hjk hlast.lt hlast.span_eq (Nat.le_refl _) rfl
      fun m hm => ?_, hrest⟩
    obtain ⟨e, he, rfl⟩ := List.mem_map.1 hm
    exact hes' e he
  | object hentries =>
    obtain ⟨i, j, hlo, hl, hls'⟩ := hls.uncons
    obtain ⟨k, l, hjk, hlast, hentries', hrest⟩ := hentries.places_closed (entry_places hs) hls'
    refine ⟨l, placed_of_brackets hl hlo hjk hlast.lt hlast.span_eq (Nat.le_refl _) rfl
      fun m hm => ?_, hrest⟩
    obtain ⟨x, hx, rfl⟩ := List.mem_map.1 hm
    exact hentries' x hx

/-- A node from its owner to a token holds what stands between these. -/
theorem placed_of_owner {owner : Expr} {n : Node} {mid k l : Nat} {last : Span}
    (howner : Placed cs lo mid (.expr owner)) (hmid : mid ≤ k) (hkl : k < l)
    (hlast : last = .slice cs k l) (hhi : l ≤ hi) (hspan : n.span = owner.span.merge last)
    (hchildren : ∀ m ∈ n.children, m = .expr owner ∨ Placed cs mid k m) : Placed cs lo hi n := by
  obtain ⟨i, j, hloi, hij, hjm, hospan, howner'⟩ := howner.exists_slice
  refine .of_merge hspan hospan hlast hloi hij (by omega) (by omega) hhi fun m hm => ?_
  rcases hchildren m hm with rfl | hm
  · exact howner'.mono (Nat.le_refl _) (by omega)
  · exact hm.mono (by omega) (by omega)

theorem AccessedRead.places {e : Expr} (h : AccessedRead sub ls e rest) (hs : Places cs .expr sub)
    (hls : LaidOut cs hi lo ls) : ∃ mid, Placed cs lo mid (.expr e) ∧ LaidOut cs hi mid rest := by
  induction h with
  | primary h => exact primary_places hs hls h
  | member _ _ ih =>
    obtain ⟨mid, howner, hdot⟩ := ih
    obtain ⟨i, j, hmid, hl, hname⟩ := hdot.uncons
    obtain ⟨k, l, hjk, hlast, hrest⟩ := hname.uncons
    have hlt := hl.lt
    refine ⟨l, placed_of_owner howner (by omega) hlast.lt hlast.span_eq (Nat.le_refl _) rfl
      fun m hm => ?_, hrest⟩
    exact .inl (List.mem_singleton.1 hm)
  | index _ hposition ih =>
    obtain ⟨mid, howner, hbracket⟩ := ih
    obtain ⟨i, j, hmid, hl, hls'⟩ := hbracket.uncons
    obtain ⟨mid', hplaced, hls''⟩ := hs hls' hposition
    obtain ⟨k, l, hk, hlast, hrest⟩ := hls''.uncons
    have hlt := hl.lt
    have hlt' := hplaced.lt
    refine ⟨l, placed_of_owner howner (by omega) hlast.lt hlast.span_eq (Nat.le_refl _) rfl
      fun m hm => ?_, hrest⟩
    rcases List.mem_cons.1 hm with rfl | hm
    · exact .inl rfl
    · cases List.mem_singleton.1 hm
      exact .inr (hplaced.mono (by omega) hk)
  | call _ hargs ih =>
    obtain ⟨mid, hcallee, hparen⟩ := ih
    obtain ⟨i, j, hmid, hl, hls'⟩ := hparen.uncons
    obtain ⟨k, l, hjk, hlast, hargs', hrest⟩ := hargs.places_closed hs hls'
    have hlt := hl.lt
    refine ⟨l, placed_of_owner hcallee (by omega) hlast.lt hlast.span_eq (Nat.le_refl _) rfl
      fun m hm => ?_, hrest⟩
    rcases List.mem_cons.1 hm with rfl | hm
    · exact .inl rfl
    · obtain ⟨arg, harg, rfl⟩ := List.mem_map.1 hm
      exact .inr ((hargs' arg harg).mono (by omega) (Nat.le_refl _))

theorem accessed_places (hs : Places cs .expr sub) : Places cs .expr (accessed sub) :=
  fun _ _ _ _ _ hls h => (accessedRead_of_accessed h).places hs hls

theorem prefixed_places {operand : Option (TokenReader Expr)}
    (ho : ∀ reader, operand = some reader → Places cs .expr reader) (hs : Places cs .expr sub) :
    Places cs .expr (prefixed operand sub) := by
  intro hi lo ls e rest hls h
  cases prefixedRead_of_prefixed h with
  | accessed h => exact accessed_places hs hls h
  | operator _ hreader hx =>
    obtain ⟨i, j, hlo, hl, hls'⟩ := hls.uncons
    obtain ⟨mid, hplaced, hrest⟩ := ho _ hreader hls' hx
    obtain ⟨k, l, hjk, hkl, hlm, hspan, hplaced'⟩ := hplaced.exists_slice
    have hij := hl.lt
    refine ⟨mid, .of_merge rfl hl.span_eq hspan hlo hij (by omega) (by omega) hlm ?_, hrest⟩
    exact List.forall_mem_singleton.2 (hplaced'.mono (by omega) (Nat.le_refl _))

end Sub

/-- Both readers put what they read where it stands, within any budget. -/
theorem expression_unary_places (cs : List Char) (budget : Nat) :
    Places cs .expr (expression budget) ∧ Places cs .expr (unary budget) :=
  expression_unary_induction (fun _ => Places cs .expr) (fun _ => Places cs .expr) tooDeep_places
    (fun _ => conditional_places) (fun hfull => prefixed_places nofun hfull)
    (fun _ hunary hfull => prefixed_places (fun _ h => by cases h; exact hunary) hfull) budget

end Grammar

namespace Expr

open Node

theorem placed_of_parse {source : String} {e : Expr} (h : parse source = .ok e) :
    Placed source.toList 0 source.toList.length (.expr e) := by
  unfold parse at h
  split at h
  next => cases h
  next ls hls =>
    obtain ⟨mid, hplaced, hrest⟩ := (Grammar.expression_unary_places source.toList maxNesting).1
      (LaidOut.of_tokenize hls) (Grammar.whole_eq_ok_iff.1 h)
    exact hplaced.mono (Nat.le_refl _) hrest.le

/-- Every node of a tree, those in template literals too, has the place of some text of the source,
and holds its own nodes inside that. -/
theorem parse_spans (source : String) (e : Expr) (h : parse source = .ok e) (n : Node)
    (hn : n.Within (.expr e)) :
    n.span.start < n.span.stop ∧
    (∃ before text behind, source.toList = before ++ text ++ behind ∧
      n.span = .behind before text) ∧
    ∀ m : Node, m.Within n → n.span.start ≤ m.span.start ∧ m.span.stop ≤ n.span.stop := by
  obtain ⟨i, j, -, hij, hj, hspan, hplaced⟩ := ((placed_of_parse h).of_within hn).exists_slice
  refine ⟨?_, ⟨source.toList.take i, (source.toList.take j).drop i, source.toList.drop j, ?_, ?_⟩,
    fun m hm => ?_⟩
  · rw [hspan]
    exact Span.slice_start_lt_stop hij hj
  · rw [← Span.take_eq_append (Nat.le_of_lt hij), List.take_append_drop]
  · rw [hspan, Span.slice_eq_behind (Nat.le_of_lt hij)]
  · obtain ⟨i', j', hi, -, hj', hspan', -⟩ := (hplaced.of_within hm).exists_slice
    rw [hspan, hspan']
    exact Span.slice_le hi hj' _

theorem parse_spans_nested :
    let source := "é ??\n \x60$\x7b [\x7bk: \x60$\x7b'ß' + x.y\x7d\x60\x7d] \x7d\x60"
    ∃ e, parse source = .ok e ∧ ∀ n : Node, n.Within (.expr e) →
      n.span.start < n.span.stop ∧
      (∃ before text behind, source.toList = before ++ text ++ behind ∧
        n.span = .behind before text) ∧
      ∀ m : Node, m.Within n → n.span.start ≤ m.span.start ∧ m.span.stop ≤ n.span.stop := by
  intro source
  have hok : (parse source).isOk := by decide +kernel
  cases h : parse source with
  | error err =>
    rw [h] at hok
    cases hok
  | ok e => exact ⟨e, rfl, parse_spans source e h⟩

end Expr

end JsonStencil
