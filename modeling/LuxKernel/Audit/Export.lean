import Mathlib.Data.List.Forall2
import LuxKernel.Audit.Chain
import LuxKernel.Formats.Json

namespace LuxKernel.Audit

open Formats

def AuditEvent.kindStr (event : AuditEvent) : String :=
  match event.kind with
  | .capabilityCheck => "cap_check"
  | .capabilityRevoked => "cap_revoked"
  | .resourceDeduction => "resource_deduct"
  | .topologyTraverse => "topo_traverse"
  | .topologyChange => "topo_change"
  | .hiringDecision => "hiring_decision"
  | .policyGateCheck => "policy_gate_check"

def AuditEvent.denialClassStr (event : AuditEvent) : Option String :=
  match event.denialClass with
  | some .halt => some "halt"
  | some .failure => some "failure"
  | none => none

def AuditEvent.ok (event : AuditEvent) : Bool := decide (event.outcome = .permitted)

-- The format `02x`.
def hexByte (byte : UInt8) : List Char :=
  [Nat.digitChar (byte.toNat / 16), Nat.digitChar (byte.toNat % 16)]

def hexStr (hash : Digest) : String := String.ofList (hash.toList.flatMap hexByte)

-- The three writes of `export_json` for an event: the common fields, the class and the
-- reason, the hash.
def commonFields (event : AuditEvent) : String :=
  "\x7b\"seq\":" ++ event.seq.toNat.repr ++ ",\"kind\":\"" ++ event.kindStr ++
    "\",\"actor\":" ++ event.actor.toNat.repr ++ ",\"ts\":" ++ event.timestamp.toNat.repr ++
    ",\"ok\":" ++ toString event.ok ++ ","

def denialFields (event : AuditEvent) : String :=
  match event.denialClassStr with
  | none => "\"class\":null,\"reason\":null,"
  | some c =>
      let reason := event.denialReason.getD ""
      "\"class\":\"" ++ c ++ "\",\"reason\":\"" ++ reason ++ "\","

def hashField (event : AuditEvent) : String := "\"hash\":\"" ++ hexStr event.hash ++ "\"\x7d"

def exportEvent (event : AuditEvent) : String :=
  commonFields event ++ denialFields event ++ hashField event

-- The loop of `export_json` from position `i`, and the closing bracket.
def exportFrom (i : Nat) : List AuditEvent → String
  | [] => "]"
  | event :: rest => (if i > 0 then "," else "") ++ exportEvent event ++ exportFrom (i + 1) rest

def AuditLog.exportJson (log : AuditLog) : String := "[" ++ exportFrom 0 log.events.toList

-- What an object has to say about an event.
def AuditEvent.header (event : AuditEvent) : List (String × Json) :=
  [("seq", .number event.seq.toNat 0), ("kind", .string event.kindStr),
    ("actor", .number event.actor.toNat 0), ("ts", .number event.timestamp.toNat 0),
    ("ok", .bool event.ok), ("class", event.denialClassStr.elim .null .string)]

def AuditEvent.reasonJson (event : AuditEvent) : Json := event.denialReason.elim .null .string

-- Each field stands in the object once, with the value of the event.
def Describes (event : AuditEvent) : Json → Prop
  | .object members =>
      ∀ field ∈ event.header ++ [("reason", event.reasonJson)],
        Json.valuesOf members field.1 = [field.2]
  | _ => False

-- The export is one JSON array with one object for each event, in order.
def AuditLog.Faithful (log : AuditLog) : Prop :=
  ∃ objects, Json.parse log.exportJson = some (.array objects) ∧
    List.Forall₂ Describes log.events.toList objects

def AuditEvent.PlainReason (event : AuditEvent) : Prop :=
  ∀ reason ∈ event.denialReason, Json.Plain reason

def AuditEvent.toJson (event : AuditEvent) : Json :=
  .object (event.header ++ [("reason", event.reasonJson), ("hash", .string (hexStr event.hash))])

section Text

variable {event : AuditEvent}

theorem plain_kindStr (event : AuditEvent) : Json.Plain event.kindStr := by
  unfold AuditEvent.kindStr
  cases event.kind <;> decide

theorem plain_of_denialClassStr {c : String} (h : event.denialClassStr = some c) : Json.Plain c := by
  unfold AuditEvent.denialClassStr at h
  split at h
  · exact Option.some.inj h ▸ by decide
  · exact Option.some.inj h ▸ by decide
  · exact absurd h (by simp)

theorem plainChar_digitChar : ∀ n < 16, Json.PlainChar (Nat.digitChar n) := by decide

theorem plain_hexStr (hash : Digest) : Json.Plain (hexStr hash) := by
  intro c hc
  simp only [hexStr, String.toList_ofList, List.mem_flatMap, hexByte, List.mem_cons,
    List.not_mem_nil, or_false] at hc
  obtain ⟨byte, -, rfl | rfl⟩ := hc
  · exact plainChar_digitChar _ (by have := byte.toNat_lt; omega)
  · exact plainChar_digitChar _ (by omega)

theorem render_nat (n : Nat) : Json.render (.number n 0) = n.repr.toList := by
  simp [Json.render, Json.renderNumber, Json.sign, Nat.toList_repr]

theorem render_bool (b : Bool) : Json.render (.bool b) = (toString b).toList := by
  cases b <;> rfl

theorem render_string {s : String} (h : Json.Plain s) :
    Json.render (.string s) = '"' :: s.toList ++ ['"'] := by
  rw [Json.render, Json.quote_of_plain h]

-- The reason as it is written, whatever it contains.
def reasonText (event : AuditEvent) : List Char :=
  event.denialReason.elim ['n', 'u', 'l', 'l'] fun reason => '"' :: reason.toList ++ ['"']

theorem toList_commonFields (event : AuditEvent) :
    (commonFields event).toList = '{' :: Json.renderOpen
      [("seq", .number event.seq.toNat 0), ("kind", .string event.kindStr),
        ("actor", .number event.actor.toNat 0), ("ts", .number event.timestamp.toNat 0),
        ("ok", .bool event.ok)] := by
  have hkind := render_string (plain_kindStr event)
  unfold commonFields
  simp only [String.toList_append, Json.renderOpen, List.flatMap_cons, List.flatMap_nil, render_nat,
    render_bool, hkind]
  simp [Json.quote, Json.escapeChar]

theorem denialClassStr_isSome (h : event.Consistent) :
    event.denialClassStr.isSome = event.denialReason.isSome := by
  have hclass : event.denialClassStr.isSome = event.denialClass.isSome := by
    unfold AuditEvent.denialClassStr
    split <;> simp_all
  rw [hclass, Bool.eq_iff_iff, ← h.1, ← h.2]

theorem toList_denialFields (h : event.Consistent) :
    (denialFields event).toList =
      Json.renderOpen [("class", event.denialClassStr.elim .null .string)] ++
        (Json.quote "reason" ++ ':' :: (reasonText event ++ [','])) := by
  have hsome := denialClassStr_isSome h
  cases hclass : event.denialClassStr with
  | none =>
      cases hreason : event.denialReason with
      | none => simp [denialFields, reasonText, hclass, hreason, Json.renderOpen, Json.render,
          Json.quote, Json.escapeChar]
      | some reason => simp [hclass, hreason] at hsome
  | some c =>
      cases hreason : event.denialReason with
      | none => simp [hclass, hreason] at hsome
      | some reason => simp [denialFields, reasonText, hclass, hreason, Json.renderOpen,
          render_string (plain_of_denialClassStr hclass), Json.quote, Json.escapeChar]

theorem toList_hashField (event : AuditEvent) :
    (hashField event).toList = Json.renderMembers [("hash", .string (hexStr event.hash))] := by
  simp [hashField, Json.renderMembers, render_string (plain_hexStr event.hash), Json.quote,
    Json.escapeChar]

theorem toList_exportEvent (h : event.Consistent) :
    (exportEvent event).toList = '{' :: (Json.renderOpen event.header ++
      (Json.quote "reason" ++ ':' :: (reasonText event ++ ',' ::
        Json.renderMembers [("hash", .string (hexStr event.hash))]))) := by
  rw [exportEvent, String.toList_append, String.toList_append, toList_commonFields,
    toList_denialFields h, toList_hashField, AuditEvent.header]
  simp [Json.renderOpen]

theorem reasonText_of_plain (h : event.PlainReason) :
    reasonText event = Json.render event.reasonJson := by
  unfold AuditEvent.PlainReason at h
  cases hreason : event.denialReason with
  | none => simp [reasonText, AuditEvent.reasonJson, hreason, Json.render]
  | some reason =>
      have hplain := h reason hreason
      simp [reasonText, AuditEvent.reasonJson, hreason, render_string hplain]

theorem toList_exportEvent_of_plain (hconsistent : event.Consistent) (hplain : event.PlainReason) :
    (exportEvent event).toList = Json.render event.toJson := by
  rw [toList_exportEvent hconsistent, reasonText_of_plain hplain, AuditEvent.toJson, Json.render,
    Json.renderMembers_append, Json.renderMembers_cons]

theorem describes_toJson (event : AuditEvent) : Describes event event.toJson := by
  simp [Describes, AuditEvent.toJson, AuditEvent.header, Json.valuesOf]

theorem kind_eq_of_kindStr {other : AuditEvent} (h : event.kindStr = other.kindStr) :
    event.kind = other.kind := by
  unfold AuditEvent.kindStr at h
  generalize event.kind = kind, other.kind = kind' at h ⊢
  revert h
  cases kind <;> cases kind' <;> decide

theorem denialClass_eq_of_denialClassStr {other : AuditEvent}
    (h : event.denialClassStr = other.denialClassStr) : event.denialClass = other.denialClass := by
  unfold AuditEvent.denialClassStr at h
  split at h <;> split at h <;> simp_all

theorem outcome_eq_of_ok {other : AuditEvent} (h : event.ok = other.ok) :
    event.outcome = other.outcome := by
  simp only [AuditEvent.ok, decide_eq_decide] at h
  revert h
  cases event.outcome <;> cases other.outcome <;> decide

theorem nat_of_number {n m : Nat} (h : Json.number n 0 = .number m 0) : n = m :=
  Int.ofNat.inj (Json.number.inj h).1

theorem option_of_elim {a b : Option String} (h : a.elim Json.null .string = b.elim .null .string) :
    a = b := by
  cases a <;> cases b <;> simp_all

-- An object says which event it describes, the hash apart.
theorem eq_of_describes {other : AuditEvent} {json : Json} (h : Describes event json)
    (hother : Describes other json) : { event with hash := other.hash } = other := by
  cases json with
  | object members =>
      simp only [Describes, AuditEvent.header, List.cons_append, List.nil_append,
        List.forall_mem_cons] at h hother
      obtain ⟨hseq, hkind, hactor, hts, hok, hclass, hreason, -⟩ := h
      obtain ⟨hseq', hkind', hactor', hts', hok', hclass', hreason', -⟩ := hother
      have agree {value value' : Json} {values : List Json} (h : values = [value])
          (h' : values = [value']) : value = value' := List.singleton_inj.mp (h.symm.trans h')
      have hseq := UInt64.toNat_inj.mp (nat_of_number (agree hseq hseq'))
      have hkind := kind_eq_of_kindStr (Json.string.inj (agree hkind hkind'))
      have hactor := UInt32.toNat_inj.mp (nat_of_number (agree hactor hactor'))
      have hts := UInt64.toNat_inj.mp (nat_of_number (agree hts hts'))
      have hok := outcome_eq_of_ok (Json.bool.inj (agree hok hok'))
      have hclass := denialClass_eq_of_denialClassStr (option_of_elim (agree hclass hclass'))
      have hreason := option_of_elim (agree hreason hreason')
      rw [hseq, hkind, hactor, hts, hok, hclass, hreason]
  | _ => exact h.elim

-- An object that gives the reason back was written from a plain one.
theorem plainReason_of_describes {fuel : Nat} {json : Json} {following rest : List Char}
    (hconsistent : event.Consistent) (hfuel : (exportEvent event).toList.length ≤ fuel)
    (hparse : Json.parseValue fuel ((exportEvent event).toList ++ following) = some (json, rest))
    (hdescribes : Describes event json) : event.PlainReason := by
  intro reason hreason
  have htext : reasonText event = '"' :: reason.toList ++ ['"'] := by
    rw [reasonText, show event.denialReason = some reason from hreason]
    rfl
  have hjson : event.reasonJson = .string reason := by
    rw [AuditEvent.reasonJson, show event.denialReason = some reason from hreason]
    rfl
  rw [toList_exportEvent hconsistent, htext] at hparse hfuel
  simp only [List.length_cons, List.length_append] at hfuel
  obtain ⟨fuel, rfl⟩ : ∃ n, fuel = n + 2 := ⟨fuel - 2, by omega⟩
  rw [List.cons_append, List.append_assoc, List.append_assoc, List.cons_append] at hparse
  obtain ⟨n, value, more, rest, hvalue, rfl⟩ := Json.parseValue_open (by omega) hparse
  -- The other fields have other names.
  have hheader : Json.valuesOf event.header "reason" = [] := rfl
  have hvalues := hdescribes ("reason", event.reasonJson) (by simp)
  rw [Json.valuesOf_append, hheader, List.nil_append, hjson] at hvalues
  obtain rfl : value = .string reason := (List.cons.inj hvalues).1
  cases n with
  | zero => exact absurd hvalue (by simp [Json.parseValue])
  | succ n =>
      rw [List.cons_append, List.cons_append, List.cons_append, Json.parseValue_string] at hvalue
      obtain ⟨⟨read, rest'⟩, hread, heq⟩ := Option.map_eq_some_iff.mp hvalue
      obtain rfl : read = reason.toList := by
        rw [← Json.string.inj (Prod.mk.inj heq).1, String.toList_ofList]
      rw [List.append_assoc, List.append_assoc, Json.renderMembers, Json.quote] at hread
      exact Json.plain_of_readString_raw hread

end Text

section Log

theorem exportFrom_succ (i : Nat) (events : List AuditEvent) :
    exportFrom (i + 1) events = exportFrom 1 events := by
  induction events generalizing i with
  | nil => rfl
  | cons event rest ih => rw [exportFrom, exportFrom, ih (i + 1), ih 1, if_pos, if_pos] <;> omega

theorem toList_exportFrom_cons (event : AuditEvent) (rest : List AuditEvent) :
    (exportFrom 0 (event :: rest)).toList =
      (exportEvent event).toList ++ (exportFrom 1 rest).toList := by
  simp [exportFrom]

theorem toList_exportFrom_next (event : AuditEvent) (rest : List AuditEvent) :
    (exportFrom 1 (event :: rest)).toList = ',' :: (exportFrom 0 (event :: rest)).toList := by
  simp [exportFrom, exportFrom_succ 1]

theorem length_exportFrom_pos (events : List AuditEvent) :
    0 < (exportFrom 1 events).toList.length := by
  cases events with
  | nil => decide
  | cons event rest =>
      rw [toList_exportFrom_next]
      exact Nat.succ_pos _

theorem toList_exportFrom_of_plain {events : List AuditEvent}
    (hconsistent : ∀ event ∈ events, event.Consistent)
    (hplain : ∀ event ∈ events, event.PlainReason) :
    (exportFrom 0 events).toList = Json.renderElements (events.map AuditEvent.toJson) := by
  induction events with
  | nil => rfl
  | cons event rest ih =>
      rw [List.forall_mem_cons] at hconsistent hplain
      rw [toList_exportFrom_cons, toList_exportEvent_of_plain hconsistent.1 hplain.1]
      cases rest with
      | nil => rfl
      | cons next rest =>
          rw [toList_exportFrom_next, ih hconsistent.2 hplain.2]
          rfl

-- Induction along the events: the objects of plain events are read as they were
-- written, so that the parser stands at the next one.
theorem plainReason_of_parse {events : List AuditEvent} {fuel : Nat} {objects : List Json}
    {rest : List Char} (hconsistent : ∀ event ∈ events, event.Consistent)
    (hfuel : (exportFrom 0 events).toList.length ≤ fuel)
    (hparse : Json.parseElements fuel (exportFrom 0 events).toList = some (objects, rest))
    (hdescribes : List.Forall₂ Describes events objects) :
    ∀ event ∈ events, event.PlainReason := by
  induction events generalizing fuel objects rest with
  | nil => simp
  | cons event later ih =>
      rw [List.forall_mem_cons] at hconsistent ⊢
      rw [toList_exportFrom_cons] at hparse hfuel
      obtain ⟨fuel, rfl, -⟩ := Json.exists_fuel hfuel (by simp [toList_exportEvent hconsistent.1])
      rw [List.length_append] at hfuel
      have hpos := length_exportFrom_pos later
      obtain ⟨object, objects, rest', hobject, rfl⟩ := Json.parseElements_eq_some hparse
      obtain ⟨hfirst, hlater⟩ := List.forall₂_cons.mp hdescribes
      have hplain := plainReason_of_describes hconsistent.1 (by omega) hobject hfirst
      refine ⟨hplain, ?_⟩
      cases later with
      | nil => simp
      | cons next later =>
          rw [toList_exportFrom_next, List.length_cons] at hfuel
          rw [toList_exportEvent_of_plain hconsistent.1 hplain] at hparse hfuel
          rw [toList_exportFrom_next,
            Json.parseElements_cons (Json.parseValue_render _ _ _ (by omega) Json.Ends.comma)] at hparse
          obtain ⟨⟨read, rest''⟩, hread, heq⟩ := Option.map_eq_some_iff.mp hparse
          obtain rfl : read = objects := (List.cons.inj (Prod.mk.inj heq).1).2
          refine ih hconsistent.2 ?_ hread hlater
          omega

variable {log : AuditLog}

theorem toList_exportJson (log : AuditLog) :
    log.exportJson.toList = '[' :: (exportFrom 0 log.events.toList).toList := by
  rw [AuditLog.exportJson, String.toList_append]
  rfl

-- Without anything to escape, the export is the rendering of the events.
theorem parse_exportJson (hconsistent : ∀ event ∈ log.events.toList, event.Consistent)
    (hplain : ∀ event ∈ log.events.toList, event.PlainReason) :
    Json.parse log.exportJson = some (.array (log.events.toList.map AuditEvent.toJson)) := by
  have hrender : log.exportJson =
      String.ofList (Json.render (.array (log.events.toList.map AuditEvent.toJson))) := by
    rw [← String.toList_inj, toList_exportJson, toList_exportFrom_of_plain hconsistent hplain,
      String.toList_ofList, Json.render]
  rw [hrender, Json.parse_render]

theorem faithful_of_plain (hconsistent : ∀ event ∈ log.events.toList, event.Consistent)
    (hplain : ∀ event ∈ log.events.toList, event.PlainReason) : log.Faithful := by
  refine ⟨log.events.toList.map AuditEvent.toJson, parse_exportJson hconsistent hplain, ?_⟩
  rw [List.forall₂_map_right_iff, List.forall₂_same]
  exact fun event _ => describes_toJson event

theorem plain_of_faithful (hconsistent : ∀ event ∈ log.events.toList, event.Consistent)
    (h : log.Faithful) : ∀ event ∈ log.events.toList, event.PlainReason := by
  obtain ⟨objects, hparse, hdescribes⟩ := h
  obtain ⟨rest, hvalue⟩ := Json.parseValue_of_parse hparse
  rw [toList_exportJson, List.length_cons] at hvalue
  generalize log.events.toList = events at hconsistent hdescribes hvalue ⊢
  cases events with
  | nil => simp
  | cons event later =>
      have hhead : (Json.skipSpace (exportFrom 0 (event :: later)).toList).head? ≠ some ']' := by
        rw [toList_exportFrom_cons, toList_exportEvent (hconsistent event List.mem_cons_self),
          List.cons_append, Json.skipSpace_cons rfl]
        exact fun heq => absurd (Option.some.inj heq) (by decide)
      rw [Json.parseValue_array hhead] at hvalue
      obtain ⟨⟨read, rest'⟩, hread, heq⟩ := Option.map_eq_some_iff.mp hvalue
      obtain rfl : read = objects := Json.array.inj (Prod.mk.inj heq).1
      exact plainReason_of_parse hconsistent (Nat.le_refl _) hread hdescribes

variable [Sha256]

theorem plainReason_appendAll (calls : List Append) :
    (∀ event ∈ (AuditLog.appendAll calls).events.toList, event.PlainReason) ↔
      ∀ call ∈ calls.reverse.take MAX_AUDIT_EVENTS, ∀ denial ∈ call.denial, Json.Plain denial.2 := by
  have hmap := List.forall_mem_map (l := (AuditLog.appendAll calls).events.toList)
    (f := AuditEvent.denialReason) (P := fun stored => ∀ reason ∈ stored, Json.Plain reason)
  rw [AuditLog.map_appendAll AuditEvent.denialReason (fun call => call.denial.map Prod.snd)
    (fun _ _ => rfl), List.forall_mem_map] at hmap
  refine hmap.symm.trans (forall₂_congr fun call _ => ?_)
  cases call.denial <;> simp

-- The export is faithful exactly when no reason that reached the log holds a quotation
-- mark, a backslash or a control character: `export_json` does not escape.
theorem exportJson_faithful_iff (calls : List Append) :
    (AuditLog.appendAll calls).Faithful ↔
      ∀ call ∈ calls.reverse.take MAX_AUDIT_EVENTS, ∀ denial ∈ call.denial, Json.Plain denial.2 := by
  have hconsistent := (AuditLog.linked_appendAll calls).consistent
  rw [← plainReason_appendAll]
  constructor
  · exact plain_of_faithful hconsistent
  · exact faithful_of_plain hconsistent

end Log

section Unescaped

attribute [local instance] Sha256.zero

-- A reason of one quotation mark ends the string early, and what follows is not JSON.
theorem quoted_reason_breaks_export :
    Json.parse (AuditLog.appendAll [⟨.capabilityCheck, 1, 0, some (.halt, "\"")⟩]).exportJson =
      none := by
  decide +kernel

end Unescaped

end LuxKernel.Audit
