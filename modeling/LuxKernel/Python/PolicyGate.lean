import LuxKernel.Types
import LuxKernel.Heapless.Containers
import Mathlib.Data.Finset.Dedup
import Mathlib.Data.Finset.Lattice.Fold

namespace LuxKernel.Python

open Heapless

inductive PyError where
  | valueError (message : String)
deriving DecidableEq, Repr

-- `text.contains(sub)` in Rust, `sub in text` in Python.
def contains (text sub : String) : Bool :=
  text.toList.tails.any fun tail => sub.toList.isPrefixOf tail

-- `{:?}` for a slice of strings; `debug` is `{:?}` for one string.
def debugSlice (debug : String → String) (items : List String) : String :=
  "[" ++ ", ".intercalate (items.map debug) ++ "]"

def MAX_GATE_FEATURES : Nat := 16

def KNOWN_APPROVED : List String :=
  ["years_experience", "education_level", "technical_skills", "communication_score",
    "problem_solving", "fit_score"]

def KNOWN_BLOCKED_SUBSTRINGS : List String := ["age", "gender", "race", "ethnicity", "sex"]

def PROTECTED_EXACT : List String := ["age", "gender", "race"]

def REASON_PROTECTED_EXACT : String := "protected attribute in feature vector"
def REASON_PROTECTED_ALIAS : String := "aliased protected attribute in feature vector"
def REASON_UNAPPROVED : String := "unapproved feature in feature vector"
def REASON_ALLOWED : String := "all approved features; no protected attributes"

-- A list of at most `MAX_GATE_FEATURES` strings, all of them from `table`.
structure Known (table : List String) where
  items : HVec String MAX_GATE_FEATURES
  known : ∀ s ∈ items.toList, s ∈ table

namespace Known

variable {table : List String}

def empty : Known table := ⟨HVec.empty, by simp⟩

-- The body of the loops of `new`: the table's own string is stored.
def push (unknown : String → String) (full : String) (list : Known table) (s : String) :
    Except PyError (Known table) :=
  match hfind : table.find? fun k => decide (k = s) with
  | none => .error (.valueError (unknown s))
  | some k =>
      match hpush : list.items.push k with
      | none => .error (.valueError full)
      | some items => .ok ⟨items, by
          intro x hx
          rw [(HVec.push_eq_some_iff.mp hpush).2, List.mem_append, List.mem_singleton] at hx
          rcases hx with hold | rfl
          · exact list.known x hold
          · exact List.mem_of_find?_eq_some hfind⟩

end Known

structure PyPolicyGate where
  approved : Known KNOWN_APPROVED
  blocked : Known KNOWN_BLOCKED_SUBSTRINGS

structure PolicyVerdict where
  allowed : Bool
  reason : String
  denialClass : Option String
deriving DecidableEq, Repr

namespace PyPolicyGate

def new (debug : String → String) (approvedFeatures blockedAttrs : List String) :
    Except PyError PyPolicyGate := do
  let approved ← approvedFeatures.foldlM
    (Known.push
      (fun feat => "unknown approved feature " ++ debug feat ++ "; must be one of " ++
        debugSlice debug KNOWN_APPROVED)
      "approved_features list exceeds capacity (16)") Known.empty
  let blocked ← blockedAttrs.foldlM
    (Known.push
      (fun attr => "unknown blocked attribute " ++ debug attr ++ "; must be one of " ++
        debugSlice debug KNOWN_BLOCKED_SUBSTRINGS)
      "blocked_attrs list exceeds capacity (16)") Known.empty
  return ⟨approved, blocked⟩

def deny (reason : String) : PolicyVerdict := ⟨false, reason, some "halt"⟩

def isProtected (name : String) : Bool := PROTECTED_EXACT.contains name

section Check

variable (toLowercase : String → String) (gate : PyPolicyGate)

def isAliased (name : String) : Bool :=
  gate.blocked.items.toList.any fun sub => contains (toLowercase name) sub

def isUnapproved (name : String) : Bool := !gate.approved.items.toList.contains name

-- Three scans of the whole list, each with an early exit.
def check (featureNames : List String) : PolicyVerdict :=
  if featureNames.any isProtected then deny REASON_PROTECTED_EXACT
  else if featureNames.any (gate.isAliased toLowercase) then deny REASON_PROTECTED_ALIAS
  else if featureNames.any gate.isUnapproved then deny REASON_UNAPPROVED
  else ⟨true, REASON_ALLOWED, none⟩

end Check

end PyPolicyGate

-- What the gate thinks of a name, from the least to the worst.
inductive Severity where
  | allowed
  | unapproved
  | protectedAlias
  | protectedExact
deriving DecidableEq, Repr

namespace Severity

def rank : Severity → Nat
  | .allowed => 0
  | .unapproved => 1
  | .protectedAlias => 2
  | .protectedExact => 3

instance : LinearOrder Severity :=
  LinearOrder.lift' rank fun a b h => by cases a <;> cases b <;> first | rfl | cases h

instance : OrderBot Severity where
  bot := .allowed
  bot_le _ := Nat.zero_le _

def verdict : Severity → PolicyVerdict
  | .allowed => ⟨true, REASON_ALLOWED, none⟩
  | .unapproved => PyPolicyGate.deny REASON_UNAPPROVED
  | .protectedAlias => PyPolicyGate.deny REASON_PROTECTED_ALIAS
  | .protectedExact => PyPolicyGate.deny REASON_PROTECTED_EXACT

theorem le_protectedExact (a : Severity) : a ≤ .protectedExact := by
  cases a <;> decide

-- A scan with an early exit finds the worst of the names, as long as nothing that it
-- passes over is worse.
theorem sup_ite (p : String → Bool) {f : String → Severity} {worst : Severity}
    (hle : ∀ name, f name ≤ worst) (names : List String) :
    names.toFinset.sup (fun name => if p name then worst else f name) =
      if names.any p then worst else names.toFinset.sup f := by
  split
  · rename_i hany
    obtain ⟨name, hname, hhit⟩ := List.any_eq_true.mp hany
    apply le_antisymm
    · apply Finset.sup_le
      intro other _
      split
      · exact le_refl worst
      · exact hle other
    · apply le_trans _ (Finset.le_sup (List.mem_toFinset.mpr hname))
      rw [if_pos hhit]
  · rename_i hnone
    rw [Bool.not_eq_true, List.any_eq_false] at hnone
    apply Finset.sup_congr rfl
    intro name hname
    exact if_neg (hnone name (List.mem_toFinset.mp hname))

theorem allowed_iff_eq_bot (a : Severity) : a.verdict.allowed = true ↔ a = ⊥ := by
  cases a <;> decide

end Severity

namespace PyPolicyGate

section Judgement

variable (toLowercase : String → String) (gate : PyPolicyGate)

def severity (name : String) : Severity :=
  if isProtected name then .protectedExact
  else if gate.isAliased toLowercase name then .protectedAlias
  else if gate.isUnapproved name then .unapproved
  else .allowed

-- The order and the repetitions in the list do not matter: the verdict is the one for
-- the worst of the names.
theorem check_eq (names : List String) :
    gate.check toLowercase names = (names.toFinset.sup (gate.severity toLowercase)).verdict := by
  have hsup : names.toFinset.sup (gate.severity toLowercase) =
      if names.any isProtected then .protectedExact
      else if names.any (gate.isAliased toLowercase) then .protectedAlias
      else if names.any gate.isUnapproved then .unapproved
      else ⊥ := by
    unfold severity
    rw [Severity.sup_ite, Severity.sup_ite, Severity.sup_ite, ← Finset.sup_bot names.toFinset]
    · rfl
    · exact fun _ => bot_le
    · intro name
      split <;> decide
    · exact fun _ => Severity.le_protectedExact _
  rw [hsup, check]
  split_ifs <;> rfl

theorem check_append (xs ys : List String) :
    gate.check toLowercase (xs ++ ys) =
      (xs.toFinset.sup (gate.severity toLowercase) ⊔
        ys.toFinset.sup (gate.severity toLowercase)).verdict := by
  rw [check_eq, List.toFinset_append, Finset.sup_union]

theorem severity_eq_bot {name : String} : gate.severity toLowercase name = ⊥ ↔
    isProtected name = false ∧ gate.isAliased toLowercase name = false ∧
      name ∈ gate.approved.items.toList := by
  rw [← List.contains_iff_mem, ← Bool.not_eq_false', ← isUnapproved, severity]
  cases isProtected name <;> cases gate.isAliased toLowercase name <;>
    cases gate.isUnapproved name <;> decide

theorem check_allowed {names : List String} :
    (gate.check toLowercase names).allowed = true ↔ ∀ name ∈ names,
      isProtected name = false ∧ gate.isAliased toLowercase name = false ∧
        name ∈ gate.approved.items.toList := by
  rw [check_eq, Severity.allowed_iff_eq_bot, Finset.sup_eq_bot_iff]
  refine forall_congr' fun name => ?_
  rw [List.mem_toFinset, severity_eq_bot]

end Judgement

end PyPolicyGate

namespace Severity

-- The reasons from the strongest to the weakest.
def REASONS : List String :=
  [REASON_PROTECTED_EXACT, REASON_PROTECTED_ALIAS, REASON_UNAPPROVED, REASON_ALLOWED]

def stronger (a b : String) : String := if REASONS.idxOf a ≤ REASONS.idxOf b then a else b

theorem reason_sup (a b : Severity) :
    (a ⊔ b).verdict.reason = stronger a.verdict.reason b.verdict.reason := by
  cases a <;> cases b <;> rfl

theorem allowed_sup (a b : Severity) :
    (a ⊔ b).verdict.allowed = (a.verdict.allowed && b.verdict.allowed) := by
  cases a <;> cases b <;> rfl

end Severity

namespace Known

variable {table : List String} {unknown : String → String} {full : String}

theorem ext {a b : Known table} (h : a.items.toList = b.items.toList) : a = b := by
  cases a
  cases b
  congr
  exact HVec.ext h

theorem push_eq_ok {list list' : Known table} {s : String} :
    list.push unknown full s = .ok list' ↔ list'.items.toList = list.items.toList ++ [s] := by
  unfold push
  constructor
  · intro h
    split at h
    · cases h
    rename_i k hfind
    split at h
    · cases h
    rename_i items hpush
    obtain rfl := Except.ok.inj h
    obtain rfl : k = s := by simpa using List.find?_some hfind
    exact (HVec.push_eq_some_iff.mp hpush).2
  · intro h
    have hs : s ∈ table := by
      apply list'.known
      rw [h]
      exact List.mem_append_right _ List.mem_cons_self
    split
    · rename_i hfind
      simpa using List.find?_eq_none.mp hfind s hs
    rename_i k hfind
    obtain rfl : k = s := by simpa using List.find?_some hfind
    split
    · rename_i hpush
      have hfull := HVec.push_eq_none_iff.mp hpush
      have hlen := list'.items.length_le
      rw [h, List.length_append, List.length_singleton] at hlen
      omega
    · rename_i items hpush
      refine congrArg Except.ok (ext ?_)
      rw [(HVec.push_eq_some_iff.mp hpush).2, h]

-- The loops of `new` accept exactly what a `Known` can hold.
theorem foldlM_push {names : List String} {list list' : Known table} :
    names.foldlM (push unknown full) list = .ok list' ↔
      list'.items.toList = list.items.toList ++ names := by
  induction names generalizing list with
  | nil =>
      rw [List.foldlM_nil, List.append_nil]
      constructor
      · intro h
        rw [Except.ok.inj h]
      · intro h
        rw [ext h]
        rfl
  | cons s rest ih =>
      rw [List.foldlM_cons]
      constructor
      · intro h
        cases hpush : list.push unknown full s with
        | error e =>
            rw [hpush] at h
            cases h
        | ok next =>
            rw [hpush] at h
            rw [ih.mp h, push_eq_ok.mp hpush, List.append_assoc, List.singleton_append]
      · intro h
        have hnext : ∃ next : Known table, next.items.toList = list.items.toList ++ [s] := by
          have hlen := list'.items.length_le
          rw [h, List.length_append, List.length_cons] at hlen
          refine ⟨⟨⟨list.items.toList ++ [s], ?_⟩, fun x hx => list'.known x ?_⟩, rfl⟩
          · rw [List.length_append, List.length_singleton]
            omega
          · rw [h, List.append_cons]
            exact List.mem_append_left rest hx
        obtain ⟨next, hnext⟩ := hnext
        rw [push_eq_ok.mpr hnext]
        apply ih.mpr
        rw [h, hnext, List.append_assoc, List.singleton_append]

end Known

-- So every value of the type comes from the constructor, and from its own lists.
theorem PyPolicyGate.new_eq_ok {debug : String → String} {approvedFeatures blockedAttrs : List String}
    {gate : PyPolicyGate} : PyPolicyGate.new debug approvedFeatures blockedAttrs = .ok gate ↔
      gate.approved.items.toList = approvedFeatures ∧ gate.blocked.items.toList = blockedAttrs := by
  have hempty : ∀ {table : List String} {list : Known table} {names : List String},
      list.items.toList = (Known.empty : Known table).items.toList ++ names ↔
        list.items.toList = names := Iff.rfl
  unfold PyPolicyGate.new
  constructor
  · intro h
    obtain ⟨approved, happroved, h⟩ := bind_eq_ok.mp h
    obtain ⟨blocked, hblocked, h⟩ := bind_eq_ok.mp h
    obtain rfl := Except.ok.inj h
    exact ⟨hempty.mp (Known.foldlM_push.mp happroved), hempty.mp (Known.foldlM_push.mp hblocked)⟩
  · rintro ⟨happroved, hblocked⟩
    refine bind_eq_ok.mpr ⟨gate.approved, Known.foldlM_push.mpr (hempty.mpr happroved), ?_⟩
    exact bind_eq_ok.mpr ⟨gate.blocked, Known.foldlM_push.mpr (hempty.mpr hblocked), rfl⟩

-- The wrapper in `hiring-audit`.

def APPROVED_FEATURES : List String :=
  ["years_experience", "education_level", "technical_skills", "communication_score",
    "problem_solving", "fit_score"]

def PROTECTED_ATTRS : List String := ["age", "gender", "race"]

def PROTECTED_SUBSTRINGS : List String := ["age", "gender", "race", "ethnicity", "sex"]

def isApproved (lower : String → String) (name : String) : Bool :=
  if PROTECTED_ATTRS.contains name then false
  else if PROTECTED_SUBSTRINGS.any fun sub => contains (lower name) sub then false
  else APPROVED_FEATURES.contains name

structure PolicyResult where
  allowed : Bool
  reason : String
  violations : List String
deriving DecidableEq, Repr

structure PolicyGate where
  inner : PyPolicyGate
  checks : Nat
  denied : Nat

namespace PolicyGate

def init (debug : String → String) : Except PyError PolicyGate := do
  let inner ← PyPolicyGate.new debug APPROVED_FEATURES.mergeSort PROTECTED_SUBSTRINGS
  return ⟨inner, 0, 0⟩

-- Only the keys of the feature vector are looked at. Rust lowers with `to_lowercase`,
-- Python with `lower`.
def check (toLowercase lower : String → String) (gate : PolicyGate) (featuresUsed : List String) :
    PolicyResult × PolicyGate :=
  let result := gate.inner.check toLowercase featuresUsed
  if result.allowed = false then
    (⟨false, result.reason, featuresUsed.filter fun k => !isApproved lower k⟩,
      { gate with checks := gate.checks + 1, denied := gate.denied + 1 })
  else (⟨true, result.reason, []⟩, { gate with checks := gate.checks + 1 })

theorem check_fst (toLowercase lower : String → String) (gate : PolicyGate) (names : List String) :
    (gate.check toLowercase lower names).1 =
      if (gate.inner.check toLowercase names).allowed = false then
        ⟨false, (gate.inner.check toLowercase names).reason, names.filter fun k => !isApproved lower k⟩
      else ⟨true, (gate.inner.check toLowercase names).reason, []⟩ := by
  unfold check
  dsimp only
  split <;> rfl

section Hiring

variable {debug toLowercase lower : String → String} {gate : PyPolicyGate}

theorem init_ok (debug : String → String) :
    ∃ gate, PyPolicyGate.new debug APPROVED_FEATURES.mergeSort PROTECTED_SUBSTRINGS = .ok gate ∧
      init debug = .ok ⟨gate, 0, 0⟩ := by
  let approved : Known KNOWN_APPROVED :=
    ⟨⟨APPROVED_FEATURES.mergeSort, by rw [List.length_mergeSort]; decide⟩,
      fun s hs => List.mem_mergeSort.mp hs⟩
  let blocked : Known KNOWN_BLOCKED_SUBSTRINGS := ⟨⟨PROTECTED_SUBSTRINGS, by decide⟩, fun s hs => hs⟩
  have hnew : PyPolicyGate.new debug APPROVED_FEATURES.mergeSort PROTECTED_SUBSTRINGS =
      .ok ⟨approved, blocked⟩ := PyPolicyGate.new_eq_ok.mpr ⟨rfl, rfl⟩
  exact ⟨⟨approved, blocked⟩, hnew, bind_eq_ok.mpr ⟨_, hnew, rfl⟩⟩

-- No approved name holds a protected substring, so that both sides accept all of them,
-- whatever their lowercasing does to other names.
theorem approved_clear : ∀ name ∈ APPROVED_FEATURES, ∀ sub ∈ PROTECTED_SUBSTRINGS,
    contains name sub = false := by
  decide +kernel

theorem approved_unprotected : ∀ name ∈ APPROVED_FEATURES, PyPolicyGate.isProtected name = false := by
  decide

theorem isApproved_iff (hlower : ∀ name ∈ APPROVED_FEATURES, lower name = name) {name : String} :
    isApproved lower name = true ↔ name ∈ APPROVED_FEATURES := by
  unfold isApproved
  constructor
  · intro h
    split_ifs at h
    exact List.contains_iff_mem.mp h
  · intro hname
    have hattr : ¬PROTECTED_ATTRS.contains name = true :=
      Bool.not_eq_true _ ▸ approved_unprotected name hname
    have hclear : ¬(PROTECTED_SUBSTRINGS.any fun sub => contains (lower name) sub) = true := by
      rw [hlower name hname, Bool.not_eq_true, List.any_eq_false]
      exact fun sub hsub => Bool.not_eq_true _ ▸ approved_clear name hname sub hsub
    rw [if_neg hattr, if_neg hclear]
    exact List.contains_iff_mem.mpr hname

theorem hiring_check_allowed
    (hlower : ∀ name ∈ APPROVED_FEATURES, toLowercase name = name)
    (hgate : PyPolicyGate.new debug APPROVED_FEATURES.mergeSort PROTECTED_SUBSTRINGS = .ok gate)
    {names : List String} :
    (gate.check toLowercase names).allowed = true ↔ ∀ name ∈ names, name ∈ APPROVED_FEATURES := by
  obtain ⟨happroved, hblocked⟩ := PyPolicyGate.new_eq_ok.mp hgate
  rw [PyPolicyGate.check_allowed]
  refine forall₂_congr fun name _ => ?_
  rw [happroved, List.mem_mergeSort]
  constructor
  · exact fun h => h.2.2
  · intro hname
    refine ⟨approved_unprotected name hname, ?_, hname⟩
    rw [PyPolicyGate.isAliased, hblocked, hlower name hname, List.any_eq_false]
    exact fun sub hsub => Bool.not_eq_true _ ▸ approved_clear name hname sub hsub

end Hiring

end PolicyGate

-- The gate judges the set of names, its verdicts compose, and the predicate of the
-- wrapper agrees with it.
theorem check_judges_names (toLowercase lower : String → String)
    (hrust : ∀ name ∈ APPROVED_FEATURES, toLowercase name = name)
    (hpython : ∀ name ∈ APPROVED_FEATURES, lower name = name) :
    (∀ (gate : PyPolicyGate) (xs ys : List String), (∀ name, name ∈ xs ↔ name ∈ ys) →
      gate.check toLowercase xs = gate.check toLowercase ys) ∧
    (∀ (gate : PyPolicyGate) (xs ys : List String),
      ((gate.check toLowercase (xs ++ ys)).allowed = true ↔
        (gate.check toLowercase xs).allowed = true ∧ (gate.check toLowercase ys).allowed = true) ∧
      (gate.check toLowercase (xs ++ ys)).reason =
        Severity.stronger (gate.check toLowercase xs).reason (gate.check toLowercase ys).reason) ∧
    (∀ debug : String → String,
      ∃ gate, PyPolicyGate.new debug APPROVED_FEATURES.mergeSort PROTECTED_SUBSTRINGS = .ok gate ∧
        PolicyGate.init debug = .ok ⟨gate, 0, 0⟩ ∧
        ∀ (checks denied : Nat) (names : List String),
          ((gate.check toLowercase names).allowed = true ↔
            ∀ name ∈ names, isApproved lower name = true) ∧
          ((PolicyGate.check toLowercase lower ⟨gate, checks, denied⟩ names).1.allowed = false →
            (PolicyGate.check toLowercase lower ⟨gate, checks, denied⟩ names).1.violations ≠ [])) := by
  refine ⟨?_, ?_, ?_⟩
  · intro gate xs ys hsame
    have hset : xs.toFinset = ys.toFinset := by
      ext name
      rw [List.mem_toFinset, List.mem_toFinset, hsame]
    rw [PyPolicyGate.check_eq, PyPolicyGate.check_eq, hset]
  · intro gate xs ys
    rw [PyPolicyGate.check_append, PyPolicyGate.check_eq _ _ xs, PyPolicyGate.check_eq _ _ ys]
    constructor
    · rw [Severity.allowed_sup, Bool.and_eq_true]
    · exact Severity.reason_sup _ _
  · intro debug
    obtain ⟨gate, hnew, hinit⟩ := PolicyGate.init_ok debug
    refine ⟨gate, hnew, hinit, fun checks denied names => ?_⟩
    have hallowed : (gate.check toLowercase names).allowed = true ↔
        ∀ name ∈ names, isApproved lower name = true := by
      rw [PolicyGate.hiring_check_allowed hrust hnew]
      exact forall₂_congr fun name _ => (PolicyGate.isApproved_iff hpython).symm
    refine ⟨hallowed, fun hdenied hnone => ?_⟩
    rw [PolicyGate.check_fst] at hdenied hnone
    dsimp only at hdenied hnone
    split at hnone
    · rename_i hresult
      rw [List.filter_eq_nil_iff] at hnone
      have hall := hallowed.mpr fun name hname => by simpa using hnone name hname
      rw [hresult] at hall
      cases hall
    · rename_i hresult
      rw [if_neg hresult] at hdenied
      cases hdenied

-- The gate of the hiring pipeline, on approved features and on the same with a protected
-- attribute among them.
theorem check_judges_names_hiring : ∃ gate, PolicyGate.init id = .ok ⟨gate, 0, 0⟩ ∧
    (gate.check id ["fit_score", "education_level"]).allowed = true ∧
    (gate.check id (["fit_score", "education_level"] ++ ["race"])).allowed = false ∧
    (gate.check id (["fit_score", "education_level"] ++ ["race"])).reason =
      Severity.stronger (gate.check id ["fit_score", "education_level"]).reason
        (gate.check id ["race"]).reason := by
  have hid : ∀ name ∈ APPROVED_FEATURES, id name = name := fun _ _ => rfl
  obtain ⟨-, hcompose, hhiring⟩ := check_judges_names id id hid hid
  obtain ⟨gate, -, hinit, hjudge⟩ := hhiring id
  refine ⟨gate, hinit, (hjudge 0 0 _).1.mpr (by decide), ?_, (hcompose gate _ _).2⟩
  rw [← Bool.not_eq_true, (hjudge 0 0 _).1]
  decide

end LuxKernel.Python
