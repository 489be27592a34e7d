import JsonStencil.Proofs.Grammar.Derivation
import JsonStencil.Proofs.Template.Spells

/-!
# Heights of trees

The height of a tree is how deep a walk over its parts goes. The nesting limit counts the brackets,
the branches of conditionals and the prefix operators of a source, which the depth of a tree grows
with. It does not count the operators and the accesses that associate to the left, each of which
adds a level too: what the limit bounds is the height beside the length of such chains.
-/

namespace JsonStencil

namespace Expr

mutual

/-- The greatest weight of a path down the tree. A link, which is the step to a left operand, to the
owner of an access or to the callee of a call, has a weight of its own and any other step
weighs 1. -/
def depth (link : Nat) : Expr → Nat
  | .null _ | .bool _ _ | .number _ _ | .string _ _ | .identifier _ _ => 0
  | .template parts _ => partsDepth link parts
  | .array items _ => itemsDepth link items
  | .object entries _ => entriesDepth link entries
  | .call callee args _ => max (callee.depth link + link) (itemsDepth link args)
  | .member owner _ _ => owner.depth link + link
  | .index owner position _ => max (owner.depth link + link) (position.depth link + 1)
  | .unary _ operand _ => operand.depth link + 1
  | .binary _ left right _ | .logical _ left right _ =>
    max (left.depth link + link) (right.depth link + 1)
  | .conditional condition onTrue onFalse _ =>
    max (condition.depth link + 1) (max (onTrue.depth link + 1) (onFalse.depth link + 1))

def itemsDepth (link : Nat) : List Expr → Nat
  | [] => 0
  | e :: es => max (e.depth link + 1) (itemsDepth link es)

def partsDepth (link : Nat) : List (Part Expr) → Nat
  | [] => 0
  | .text _ :: parts => partsDepth link parts
  | .hole e :: parts => max (e.depth link + 1) (partsDepth link parts)

def entriesDepth (link : Nat) : List (ObjectEntry Expr) → Nat
  | [] => 0
  | ⟨.named _, e, _⟩ :: entries => max (e.depth link + 1) (entriesDepth link entries)
  | ⟨.computed key, e, _⟩ :: entries =>
    max (max (key.depth link + 1) (e.depth link + 1)) (entriesDepth link entries)

end

/-- The number of expressions on the longest path down the tree. -/
def height (e : Expr) : Nat := e.depth 1 + 1

/-- The number of links from the root to the first operand of the leftmost operator. -/
def chain : Expr → Nat
  | .call e _ _ | .member e _ _ | .index e _ _ | .binary _ e _ _ | .logical _ e _ _ => e.chain + 1
  | _ => 0

mutual

/-- The length of the longest chain of links anywhere in the tree. -/
def longestChain : Expr → Nat
  | .null _ | .bool _ _ | .number _ _ | .string _ _ | .identifier _ _ => 0
  | .template parts _ => partsChain parts
  | .array items _ => itemsChain items
  | .object entries _ => entriesChain entries
  | .call callee args _ => max (callee.chain + 1) (max callee.longestChain (itemsChain args))
  | .member owner _ _ => max (owner.chain + 1) owner.longestChain
  | .index owner position _ =>
    max (owner.chain + 1) (max owner.longestChain position.longestChain)
  | .unary _ operand _ => operand.longestChain
  | .binary _ left right _ | .logical _ left right _ =>
    max (left.chain + 1) (max left.longestChain right.longestChain)
  | .conditional condition onTrue onFalse _ =>
    max condition.longestChain (max onTrue.longestChain onFalse.longestChain)

def itemsChain : List Expr → Nat
  | [] => 0
  | e :: es => max e.longestChain (itemsChain es)

def partsChain : List (Part Expr) → Nat
  | [] => 0
  | .text _ :: parts => partsChain parts
  | .hole e :: parts => max e.longestChain (partsChain parts)

def entriesChain : List (ObjectEntry Expr) → Nat
  | [] => 0
  | ⟨.named _, e, _⟩ :: entries => max e.longestChain (entriesChain entries)
  | ⟨.computed key, e, _⟩ :: entries =>
    max (max key.longestChain e.longestChain) (entriesChain entries)

end

theorem chain_le_longestChain (e : Expr) : e.chain ≤ e.longestChain := by
  cases e <;> simp only [chain, longestChain] <;> omega

section Erase

variable {link : Nat}

mutual

theorem depth_erase : ∀ e : Expr, e.erase.depth link = e.depth link
  | .null _ | .bool _ _ | .number _ _ | .string _ _ | .identifier _ _ => rfl
  | .template parts _ => partsDepth_erase parts
  | .array items _ => itemsDepth_erase items
  | .object entries _ => entriesDepth_erase entries
  | .call callee args _ => by
    simp only [erase, depth, depth_erase callee, itemsDepth_erase args]
  | .member owner _ _ => by simp only [erase, depth, depth_erase owner]
  | .index owner position _ => by
    simp only [erase, depth, depth_erase owner, depth_erase position]
  | .unary _ operand _ => by simp only [erase, depth, depth_erase operand]
  | .binary _ left right _ | .logical _ left right _ => by
    simp only [erase, depth, depth_erase left, depth_erase right]
  | .conditional condition onTrue onFalse _ => by
    simp only [erase, depth, depth_erase condition, depth_erase onTrue, depth_erase onFalse]

theorem itemsDepth_erase : ∀ es : List Expr, itemsDepth link (eraseItems es) = itemsDepth link es
  | [] => rfl
  | e :: es => by simp only [eraseItems, itemsDepth, depth_erase e, itemsDepth_erase es]

theorem partsDepth_erase :
    ∀ parts : List (Part Expr), partsDepth link (eraseParts parts) = partsDepth link parts
  | [] => rfl
  | .text _ :: parts => partsDepth_erase parts
  | .hole e :: parts => by
    simp only [eraseParts, partsDepth, depth_erase e, partsDepth_erase parts]

theorem entriesDepth_erase : ∀ entries : List (ObjectEntry Expr),
    entriesDepth link (eraseEntries entries) = entriesDepth link entries
  | [] => rfl
  | ⟨.named _, e, _⟩ :: entries => by
    simp only [eraseEntries, entriesDepth, depth_erase e, entriesDepth_erase entries]
  | ⟨.computed key, e, _⟩ :: entries => by
    simp only [eraseEntries, entriesDepth, depth_erase key, depth_erase e,
      entriesDepth_erase entries]

end

end Erase

section Chains

variable {k d : Nat}

theorem link_le {e : Expr} (h : e.depth 1 ≤ e.depth 0 * (k + 1) + e.chain) (hd : e.depth 0 ≤ d) :
    e.depth 1 + 1 ≤ d * (k + 1) + (e.chain + 1) := by
  have hmul : e.depth 0 * (k + 1) ≤ d * (k + 1) := Nat.mul_le_mul_right _ hd
  omega

theorem step_le {e : Expr} (h : e.depth 1 ≤ e.depth 0 * (k + 1) + e.chain)
    (hk : e.longestChain ≤ k) (hd : e.depth 0 + 1 ≤ d) : e.depth 1 + 1 ≤ d * (k + 1) := by
  have hmul : (e.depth 0 + 1) * (k + 1) ≤ d * (k + 1) := Nat.mul_le_mul_right _ hd
  have hchain := e.chain_le_longestChain
  rw [Nat.succ_mul] at hmul
  omega

theorem rest_le {depth₁ depth₀ : Nat} (h : depth₁ ≤ depth₀ * (k + 1)) (hd : depth₀ ≤ d) :
    depth₁ ≤ d * (k + 1) :=
  h.trans (Nat.mul_le_mul_right _ hd)

mutual

/-- Between two steps that are no links a path runs along one chain. -/
theorem depth_one_le : ∀ e : Expr, e.longestChain ≤ k →
    e.depth 1 ≤ e.depth 0 * (k + 1) + e.chain
  | .null _, _ | .bool _ _, _ | .number _ _, _ | .string _ _, _ | .identifier _ _, _ =>
    Nat.zero_le _
  | .template parts _, h => partsDepth_one_le parts h
  | .array items _, h => itemsDepth_one_le items h
  | .object entries _, h => entriesDepth_one_le entries h
  | .call callee args _, h => by
    obtain ⟨-, hcallee, hargs⟩ := by simpa only [longestChain, Nat.max_le] using h
    refine Nat.max_le.2 ⟨link_le (depth_one_le callee hcallee) (Nat.le_max_left _ _), ?_⟩
    exact Nat.le_add_right_of_le (rest_le (itemsDepth_one_le args hargs) (Nat.le_max_right _ _))
  | .member owner _ _, h => by
    obtain ⟨-, howner⟩ := Nat.max_le.1 h
    exact link_le (depth_one_le owner howner) (Nat.le_refl _)
  | .index owner position _, h => by
    obtain ⟨-, howner, hposition⟩ := by simpa only [longestChain, Nat.max_le] using h
    refine Nat.max_le.2 ⟨link_le (depth_one_le owner howner) (Nat.le_max_left _ _), ?_⟩
    exact Nat.le_add_right_of_le
      (step_le (depth_one_le position hposition) hposition (Nat.le_max_right _ _))
  | .unary _ operand _, h => step_le (depth_one_le operand h) h (Nat.le_refl _)
  | .binary _ left right _, h | .logical _ left right _, h => by
    obtain ⟨-, hleft, hright⟩ := by simpa only [longestChain, Nat.max_le] using h
    refine Nat.max_le.2 ⟨link_le (depth_one_le left hleft) (Nat.le_max_left _ _), ?_⟩
    exact Nat.le_add_right_of_le
      (step_le (depth_one_le right hright) hright (Nat.le_max_right _ _))
  | .conditional condition onTrue onFalse _, h => by
    obtain ⟨hc, ht, hf⟩ := by simpa only [longestChain, Nat.max_le] using h
    have hbranches := Nat.le_max_right (condition.depth 0 + 1)
      (max (onTrue.depth 0 + 1) (onFalse.depth 0 + 1))
    refine Nat.max_le.2 ⟨step_le (depth_one_le condition hc) hc (Nat.le_max_left _ _),
      Nat.max_le.2 ⟨?_, ?_⟩⟩
    · exact step_le (depth_one_le onTrue ht) ht ((Nat.le_max_left _ _).trans hbranches)
    · exact step_le (depth_one_le onFalse hf) hf ((Nat.le_max_right _ _).trans hbranches)

theorem itemsDepth_one_le : ∀ es : List Expr, itemsChain es ≤ k →
    itemsDepth 1 es ≤ itemsDepth 0 es * (k + 1)
  | [], _ => Nat.zero_le _
  | e :: es, h => by
    obtain ⟨he, hes⟩ := Nat.max_le.1 h
    exact Nat.max_le.2 ⟨step_le (depth_one_le e he) he (Nat.le_max_left _ _),
      rest_le (itemsDepth_one_le es hes) (Nat.le_max_right _ _)⟩

theorem partsDepth_one_le : ∀ parts : List (Part Expr), partsChain parts ≤ k →
    partsDepth 1 parts ≤ partsDepth 0 parts * (k + 1)
  | [], _ => Nat.zero_le _
  | .text _ :: parts, h => partsDepth_one_le parts h
  | .hole e :: parts, h => by
    obtain ⟨he, hparts⟩ := Nat.max_le.1 h
    exact Nat.max_le.2 ⟨step_le (depth_one_le e he) he (Nat.le_max_left _ _),
      rest_le (partsDepth_one_le parts hparts) (Nat.le_max_right _ _)⟩

theorem entriesDepth_one_le : ∀ entries : List (ObjectEntry Expr), entriesChain entries ≤ k →
    entriesDepth 1 entries ≤ entriesDepth 0 entries * (k + 1)
  | [], _ => Nat.zero_le _
  | ⟨.named _, e, _⟩ :: entries, h => by
    obtain ⟨he, hentries⟩ := Nat.max_le.1 h
    exact Nat.max_le.2 ⟨step_le (depth_one_le e he) he (Nat.le_max_left _ _),
      rest_le (entriesDepth_one_le entries hentries) (Nat.le_max_right _ _)⟩
  | ⟨.computed key, e, _⟩ :: entries, h => by
    obtain ⟨hfirst, hentries⟩ := Nat.max_le.1 h
    obtain ⟨hkey, he⟩ := Nat.max_le.1 hfirst
    refine Nat.max_le.2 ⟨Nat.max_le.2 ⟨?_, ?_⟩,
      rest_le (entriesDepth_one_le entries hentries) (Nat.le_max_right _ _)⟩
    · exact step_le (depth_one_le key hkey) hkey
        ((Nat.le_max_left _ _).trans (Nat.le_max_left _ _))
    · exact step_le (depth_one_le e he) he ((Nat.le_max_right _ _).trans (Nat.le_max_left _ _))

end

end Chains

theorem height_le_of_depth_le {d : Nat} {e : Expr} (h : e.depth 0 ≤ d) :
    e.height ≤ (d + 1) * (e.longestChain + 1) :=
  step_le (depth_one_le e (Nat.le_refl _)) (Nat.le_refl _) (Nat.succ_le_succ h)

theorem entriesDepth_cons (link : Nat) (entry : ObjectEntry Expr)
    (entries : List (ObjectEntry Expr)) :
    entriesDepth link (entry :: entries) =
      max (entriesDepth link [entry]) (entriesDepth link entries) := by
  obtain ⟨key, e, span⟩ := entry
  cases key <;> simp only [entriesDepth] <;> omega

end Expr

namespace Derivation

open JsonStencil.Expr (itemsDepth partsDepth entriesDepth entriesDepth_cons)

theorem Connective.depth_join (c : Connective) (link : Nat) (left right : Expr) :
    (c.join left right).depth link = max (left.depth link + link) (right.depth link + 1) := by
  cases c <;> rfl

mutual

/-- One level of nesting adds nine levels to the tree at most: the branch of a conditional, the
right operands of seven tiers, and an operand or an item. -/
theorem Full.depth_le {n : Nat} {ts : List Token} {e : Expr} : Full n ts e → e.depth 0 ≤ 9 * n
  | .condition h => by
    have hdepth := h.depth_le
    have htiers : tiers.length = 7 := rfl
    omega
  | .choice hc hx hy => by
    have hcondition := hc.depth_le
    have htrue := hx.depth_le
    have hfalse := hy.depth_le
    have htiers : tiers.length = 7 := rfl
    simp only [Expr.depth]
    omega

theorem Tiered.depth_le {tiers : List Tier} {n : Nat} {ts : List Token} {e : Expr} :
    Tiered tiers n ts e → e.depth 0 ≤ 9 * n + 1 + tiers.length
  | .tightest h => h.depth_le
  | .operand h => by
    have hdepth := h.depth_le
    simp only [List.length_cons]
    omega
  | .join hl _ hr => by
    have hleft := hl.depth_le
    have hright := hr.depth_le
    simp only [Connective.depth_join, List.length_cons] at hleft ⊢
    omega

theorem Prefixed.depth_le {n : Nat} {ts : List Token} {e : Expr} :
    Prefixed n ts e → e.depth 0 ≤ 9 * n + 1
  | .accessed h => h.depth_le
  | .operator _ h => by
    have hdepth := h.depth_le
    simp only [Expr.depth]
    omega

theorem Accessed.depth_le {n : Nat} {ts : List Token} {e : Expr} :
    Accessed n ts e → e.depth 0 ≤ 9 * n + 1
  | .primary h => h.depth_le
  | .member h _ => h.depth_le
  | .index h hp => by
    have howner := h.depth_le
    have hposition := hp.depth_le
    simp only [Expr.depth]
    omega
  | .call h hargs => by
    have hcallee := h.depth_le
    have hdepth := hargs.depth_le
    simp only [Expr.depth]
    omega

theorem Primary.depth_le {n : Nat} {ts : List Token} {e : Expr} :
    Primary n ts e → e.depth 0 ≤ 9 * n + 1
  | .null | .true | .false | .number _ | .string _ | .identifier _ => Nat.zero_le _
  | .template h => h.depth_le
  | .group h => Nat.le_succ_of_le h.depth_le
  | .array h => h.depth_le
  | .object h => h.depth_le

theorem Items.depth_le {n : Nat} {ts : List Token} {es : List Expr} :
    Items n ts es → itemsDepth 0 es ≤ 9 * n + 1
  | .nil => Nat.zero_le _
  | .single h => by
    have hdepth := h.depth_le
    simp only [itemsDepth]
    omega
  | .cons h hes => by
    have hfirst := h.depth_le
    have hrest := hes.depth_le
    simp only [itemsDepth]
    omega

theorem Entry.depth_le {n : Nat} {ts : List Token} {entry : ObjectEntry Expr} :
    Entry n ts entry → entriesDepth 0 [entry] ≤ 9 * n + 1
  | .shorthand _ => Nat.le_refl _
  | .named _ h => by
    have hdepth := h.depth_le
    simp only [entriesDepth]
    omega
  | .computed hk h => by
    have hkey := hk.depth_le
    have hvalue := h.depth_le
    simp only [entriesDepth]
    omega

theorem Entries.depth_le {n : Nat} {ts : List Token} {entries : List (ObjectEntry Expr)} :
    Entries n ts entries → entriesDepth 0 entries ≤ 9 * n + 1
  | .nil => Nat.zero_le _
  | .single h => h.depth_le
  | .cons h hes => by
    have hfirst := h.depth_le
    have hrest := hes.depth_le
    rw [entriesDepth_cons]
    omega

theorem Chunks.depth_le {n : Nat} {chunks : List TemplateChunk} {parts : List (Part Expr)} :
    Chunks n chunks parts → partsDepth 0 parts ≤ 9 * n + 1
  | .nil => Nat.zero_le _
  | .text _ h => h.depth_le
  | .code _ h hparts => by
    have hcode := h.depth_le
    have hrest := hparts.depth_le
    simp only [partsDepth]
    omega

end

end Derivation

namespace Expr

open JsonStencil.Derivation

theorem depth_zero_le_of_parse {source : String} {e : Expr} (h : parse source = .ok e) :
    e.depth 0 ≤ 9 * maxNesting := by
  obtain ⟨ls, -, he⟩ := tokenize_of_parse h
  obtain ⟨n, hn, hderives⟩ := expression_iff.1 he
  have hdepth := hderives.depth_le
  rw [depth_erase] at hdepth
  omega

/-- The height of a tree is bounded by the nesting limit and the longest chain of links in it. -/
theorem height_le_of_parse {source : String} {e : Expr} (h : parse source = .ok e) :
    e.height ≤ (9 * maxNesting + 1) * (e.longestChain + 1) :=
  height_le_of_depth_le (depth_zero_le_of_parse h)

theorem height_le_of_parse_member :
    ∃ e, parse "a.b - (c - d)" = .ok e ∧
      e.height ≤ (9 * maxNesting + 1) * (e.longestChain + 1) := by
  have hok : (parse "a.b - (c - d)").isOk := by decide +kernel
  cases he : parse "a.b - (c - d)" with
  | error fault =>
    rw [he] at hok
    cases hok
  | ok e => exact ⟨e, rfl, height_le_of_parse he⟩

def differenceSource : Nat → List Char
  | 0 => ['a']
  | n + 1 => differenceSource n ++ [' ', '-', 'a']

def difference : Nat → Expr
  | 0 => .identifier "a" .blank
  | n + 1 => .joinBinary .sub (difference n) (.identifier "a" .blank)

theorem height_difference (n : Nat) : (difference n).height = n + 1 := by
  induction n with
  | zero => rfl
  | succ n ih =>
    simp only [height] at ih ⊢
    simp only [difference, joinBinary, depth]
    omega

theorem spells_difference (n : Nat) :
    Spells (Phrases.Expression 1) (differenceSource n) (difference n) := by
  have hname : IsIdentifier "a" := by decide
  have hminus : Symbol.minus ∈ LexesAlone.standalone := by decide
  have hoperand : Prefixed 0 [.identifier "a"] (.identifier "a" .blank) :=
    .accessed (.primary (.identifier "a"))
  have hchain : ∃ ts, Lexes (differenceSource n) ts ∧
      Tiered (tiers.drop 5) 0 ts (difference n) := by
    induction n with
    | zero => exact ⟨_, .word hname, .operand (.operand (.tightest hoperand))⟩
    | succ n ih =>
      obtain ⟨ts, hts, hleft⟩ := ih
      have hright : Lexes [' ', '-', 'a'] [.symbol .minus, .identifier "a"] :=
        Lexes.space (.cons (.symbol hminus) (.word hname))
      have hsub : (Symbol.minus, Connective.binary .sub) ∈
          [(Symbol.plus, Connective.binary .add), (.minus, .binary .sub)] := by simp
      refine ⟨_, hts.append hright (Lexer.boundary_cons (by decide) _), ?_⟩
      exact .join hleft hsub (.operand (.tightest hoperand))
  obtain ⟨ts, hts, h⟩ := hchain
  have hfull : Full 1 ts (difference n) :=
    .condition (.operand (.operand (.operand (.operand (.operand h)))))
  exact ⟨ts, hts, hfull.expression⟩

/-- No bound holds for all sources: links are not counted, and deepen the tree without end. -/
theorem height_unbounded :
    ¬ ∃ bound, ∀ source e, parse source = .ok e → e.height ≤ bound := by
  rintro ⟨bound, hbound⟩
  obtain ⟨e, he, htree⟩ := (spells_difference bound).parse_eq_ok (by decide)
  have hheight := hbound _ e he
  have hlinks := height_difference bound
  rw [height, ← htree, depth_erase] at hlinks
  rw [height] at hheight
  omega

end Expr

end JsonStencil
