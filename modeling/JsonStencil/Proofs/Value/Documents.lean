import JsonStencil.Proofs.Failures
import JsonStencil.Proofs.Numeric.RoundTrip
import JsonStencil.Proofs.Value.Equality
import JsonStencil.Value.Json

/-!
# Values as documents

A value has a document unless there is a function in it, and the first one is at fault. The value of
the document equals the value itself with null for the numbers that are not finite, keys in the same
order, and has the same document again.
-/

namespace JsonStencil

attribute [local instance (high)] instPowNat

namespace Binary64

/-- A whole number below `2 ^ 53` is as many units as its integer tells. The number of that integer
is no negative zero. -/
theorem ofInt_of_toSafeInt? {x : Binary64} {n : Int} (h : x.toSafeInt? = some n) :
    ∃ negative quanta hq, x = .finite negative quanta hq ∧ quanta = n.natAbs * one ∧
      signed negative n.natAbs = n ∧ n.natAbs < 2 ^ precision ∧
      ofInt n = .finite (n < 0) quanta hq := by
  cases x with
  | nan | infinity => cases h
  | finite negative quanta hq =>
    rw [toSafeInt?] at h
    split at h
    next hwhole =>
      obtain ⟨hmod, hlt⟩ := hwhole
      have hn : n.natAbs = quanta / one := by
        rw [← Option.some.inj h, natAbs_signed]
      have hquanta : quanta = n.natAbs * one := by
        rw [hn, Nat.div_mul_cancel (Nat.dvd_of_mod_eq_zero hmod)]
      have hexact := ofRatio_mul (n < 0) hq Nat.one_pos
      rw [Nat.mul_one] at hexact
      refine ⟨negative, quanta, hq, rfl, hquanta, ?_, hn ▸ hlt, ?_⟩
      · rw [hn]
        exact Option.some.inj h
      · rw [ofInt, ofQuanta, ← hquanta, hexact]
    next => cases h

theorem equal_ofInt {x : Binary64} {n : Int} (h : x.toSafeInt? = some n) :
    (ofInt n).equal x := by
  obtain ⟨negative, quanta, hq, rfl, hquanta, hn, -, hexact⟩ := ofInt_of_toSafeInt? h
  rw [hexact, equal_iff]
  refine ⟨.inr (n * one), ?_, ?_⟩
  · rw [point?, hquanta, signed_mul, signed_natAbs]
  · rw [point?, hquanta, signed_mul, hn]

theorem toSafeInt?_ofInt {x : Binary64} {n : Int} (h : x.toSafeInt? = some n) :
    (ofInt n).toSafeInt? = some n := by
  obtain ⟨negative, quanta, hq, -, hquanta, -, hlt, hexact⟩ := ofInt_of_toSafeInt? h
  rw [hexact, toSafeInt?, hquanta, Nat.mul_div_cancel _ one_pos, signed_natAbs,
    if_pos ⟨Nat.mul_mod_left _ _, hlt⟩]

end Binary64

namespace Value

/-- The leaf that the document of a leaf stands for. -/
def documentLeaf : Value → Value
  | .number x => ofJson (numberToJson x)
  | v => v

def nullLeaf : Value → Value
  | .number x => if x.isFinite then .number x else .null
  | v => v

def nullNonFinite (v : Value) : Value := v.mapLeaves nullLeaf

/-- The keys and positions that lead to the values in a value, in document order. -/
def paths (v : Value) : List (List String) := v.sites.map (·.path)

theorem numberToJson_cases (x : Binary64) :
    (∃ n, x.toSafeInt? = some n ∧ numberToJson x = .integer n) ∨
      (x.toSafeInt? = none ∧ x.isFinite ∧ numberToJson x = .float x) ∨
      (x.toSafeInt? = none ∧ x.isFinite = false ∧ numberToJson x = .null) := by
  unfold numberToJson
  cases hn : x.toSafeInt? with
  | some n => exact .inl ⟨n, rfl, rfl⟩
  | none =>
    by_cases hx : x.isFinite
    · exact .inr (.inl ⟨rfl, hx, if_pos hx⟩)
    · exact .inr (.inr ⟨rfl, by simpa using hx, if_neg hx⟩)

theorem equal_documentLeaf {v : Value} (hv : v.isLeaf) : (documentLeaf v).equal (nullLeaf v) := by
  cases v with
  | number x =>
    rw [documentLeaf, nullLeaf]
    rcases numberToJson_cases x with ⟨n, hn, hjson⟩ | ⟨-, hx, hjson⟩ | ⟨-, hx, hjson⟩
    · have hx : x.isFinite := by
        obtain ⟨_, _, _, rfl, -⟩ := Binary64.ofInt_of_toSafeInt? hn
        rfl
      rw [hjson, if_pos hx]
      exact Binary64.equal_ofInt hn
    · rw [hjson, if_pos hx]
      refine Binary64.equal_self_iff.2 ?_
      cases x <;> first | rfl | cases hx
    · rw [hjson, hx]
      rfl
  | array | object => cases hv
  | null => rfl
  | bool | string | function => exact decide_eq_true rfl

/-- A number has the same document after it was read from its own. -/
theorem toJson_documentLeaf (v : Value) : (documentLeaf v).toJson = v.toJson := by
  cases v with
  | number x =>
    rw [documentLeaf, toJson]
    rcases numberToJson_cases x with ⟨n, hn, hjson⟩ | ⟨-, -, hjson⟩ | ⟨-, -, hjson⟩
    · rw [hjson, ofJson, toJson, numberToJson, Binary64.toSafeInt?_ofInt hn]
    · rw [hjson, ofJson, toJson, hjson]
    · rw [hjson, ofJson, toJson]
  | _ => rfl

section Conversion

variable {items : List Value} {entries : List (String × Value)}

theorem failure?_toJson (v : Value) :
    failure? v.toJson = v.functions.head?.map fun f => .functionInJson f.name := by
  induction v using Value.induction with
  | null | bool | number | string | function => rfl
  | array items ih =>
    rw [toJson, failure?_map, functions_array]
    induction items with
    | nil => rfl
    | cons item items ihItems =>
      have hitem := ih item List.mem_cons_self
      have hitems := ihItems fun item h => ih item (List.mem_cons_of_mem _ h)
      rw [toJsonItems, failure?_both, hitem, hitems, List.flatMap_cons, List.head?_append,
        Option.map_or]
  | object entries ih =>
    rw [toJson, failure?_map, functions_object]
    induction entries with
    | nil => rfl
    | cons entry entries ihEntries =>
      have hentry := ih entry List.mem_cons_self
      have hentries := ihEntries fun entry h => ih entry (List.mem_cons_of_mem _ h)
      rw [toJsonEntries, failure?_both, hentry, hentries, List.flatMap_cons, List.head?_append,
        Option.map_or]

theorem ofJson_of_toJson {v : Value} {json : Json} (h : v.toJson = .ok json) :
    ofJson json = v.mapLeaves documentLeaf := by
  induction v using Value.induction generalizing json with
  | null | bool | string =>
    cases h
    rfl
  | number x =>
    cases h
    rfl
  | function f => cases h
  | array items ih =>
    rw [toJson] at h
    obtain ⟨jsons, hjsons, rfl⟩ := map_eq_ok_iff.1 h
    rw [ofJson, mapLeaves_array]
    congr 1
    clear h
    induction items generalizing jsons with
    | nil =>
      cases hjsons
      rfl
    | cons item items ihItems =>
      obtain ⟨json, hjson, hmore⟩ := bind_eq_ok_iff.1 hjsons
      obtain ⟨rest, hrest, hok⟩ := bind_eq_ok_iff.1 hmore
      cases hok
      rw [ofJsonItems, ih item List.mem_cons_self hjson,
        ihItems (fun item h => ih item (List.mem_cons_of_mem _ h)) rest hrest, List.map_cons]
  | object entries ih =>
    rw [toJson] at h
    obtain ⟨jsons, hjsons, rfl⟩ := map_eq_ok_iff.1 h
    rw [ofJson, mapLeaves_object]
    congr 1
    clear h
    induction entries generalizing jsons with
    | nil =>
      cases hjsons
      rfl
    | cons entry entries ihEntries =>
      obtain ⟨json, hjson, hmore⟩ := bind_eq_ok_iff.1 hjsons
      obtain ⟨rest, hrest, hok⟩ := bind_eq_ok_iff.1 hmore
      cases hok
      rw [ofJsonEntries, ih entry List.mem_cons_self hjson,
        ihEntries (fun entry h => ih entry (List.mem_cons_of_mem _ h)) rest hrest]
      rfl

theorem toJson_mapLeaves (v : Value) : (v.mapLeaves documentLeaf).toJson = v.toJson := by
  induction v using Value.induction with
  | null | bool | number | string | function => rw [mapLeaves_of_isLeaf rfl, toJson_documentLeaf]
  | array items ih =>
    rw [mapLeaves_array, toJson, toJson]
    congr 1
    induction items with
    | nil => rfl
    | cons item items ihItems =>
      rw [List.map_cons, toJsonItems, toJsonItems, ih item List.mem_cons_self,
        ihItems fun item h => ih item (List.mem_cons_of_mem _ h)]
  | object entries ih =>
    rw [mapLeaves_object, toJson, toJson]
    congr 1
    induction entries with
    | nil => rfl
    | cons entry entries ihEntries =>
      have hentries := ihEntries fun entry h => ih entry (List.mem_cons_of_mem _ h)
      rw [Entries.mapValues] at hentries
      rw [Entries.mapValues, List.map_cons, toJsonEntries, hentries, toJsonEntries,
        ← ih entry List.mem_cons_self]
      rfl

end Conversion

theorem paths_mapLeaves {g : Value → Value} (hg : ∀ v, v.isLeaf → (g v).isLeaf) (v : Value) :
    (v.mapLeaves g).paths = v.paths :=
  paths_sitesAt_mapLeaves hg v

theorem isLeaf_documentLeaf {v : Value} (hv : v.isLeaf) : (documentLeaf v).isLeaf := by
  cases v with
  | number x =>
    rw [documentLeaf]
    rcases numberToJson_cases x with ⟨n, -, hjson⟩ | ⟨-, -, hjson⟩ | ⟨-, -, hjson⟩ <;>
      rw [hjson] <;> rfl
  | _ => exact hv

/-- A value has no document if there is a function in it, the first one being at fault. Any other
value is equal to that of its document, null standing for numbers that are not finite, and both have
their keys in the same order and the same document. -/
theorem toJson_laws {v : Value} (hkeys : v.distinctKeys) :
    (failure? v.toJson = v.functions.head?.map fun f => .functionInJson f.name) ∧
      (v.functions = [] → ∃ json, v.toJson = .ok json ∧ (ofJson json).equal v.nullNonFinite ∧
        (ofJson json).paths = v.paths ∧ (ofJson json).toJson = .ok json) := by
  refine ⟨failure?_toJson v, fun hnone => ?_⟩
  have hfailure := failure?_toJson v
  rw [hnone] at hfailure
  cases hjson : v.toJson with
  | error fault =>
    rw [hjson] at hfailure
    cases hfailure
  | ok json =>
    have hvalue := ofJson_of_toJson hjson
    refine ⟨json, rfl, ?_, ?_, ?_⟩
    · rw [hvalue]
      exact (equal_mapLeaves_iff hkeys).2 fun w hw =>
        equal_documentLeaf (List.of_mem_filter hw)
    · rw [hvalue, paths_mapLeaves fun _ => isLeaf_documentLeaf]
    · rw [hvalue, toJson_mapLeaves, hjson]

theorem toJson_laws_nested :
    let v : Value := .object [("z", .array [.number (.zero true), .number .nan]),
      ("a", .object [("y", .number .half), ("b", .number (.infinity true))])]
    v.distinctKeys ∧ v.functions = [] ∧ ∃ json, v.toJson = .ok json ∧
      (ofJson json).equal (.object [("z", .array [.number (.zero true), .null]),
        ("a", .object [("y", .number .half), ("b", .null)])]) ∧
      (ofJson json).paths = [[], ["z"], ["z", "0"], ["z", "1"], ["a"], ["a", "y"], ["a", "b"]] ∧
      (ofJson json).toJson = .ok json := by
  intro v
  have hkeys : v.distinctKeys := by decide
  have hnone : v.functions = [] := rfl
  obtain ⟨json, hjson, hequal, hpaths, hagain⟩ := (toJson_laws hkeys).2 hnone
  have hhalf : Binary64.half.isFinite := by decide +kernel
  have hnull : v.nullNonFinite = .object [("z", .array [.number (.zero true), .null]),
      ("a", .object [("y", .number .half), ("b", .null)])] := by
    simp only [v, nullNonFinite, mapLeaves, mapItemLeaves, mapEntryLeaves, nullLeaf, if_pos hhalf]
    rfl
  have hkept : v.paths = [[], ["z"], ["z", "0"], ["z", "1"], ["a"], ["a", "y"], ["a", "b"]] := rfl
  rw [hnull] at hequal
  rw [hkept] at hpaths
  exact ⟨hkeys, hnone, json, hjson, hequal, hpaths, hagain⟩

end Value

end JsonStencil
