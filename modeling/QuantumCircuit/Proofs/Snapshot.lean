import QuantumCircuit.Proofs.Json.Parse
import QuantumCircuit.Proofs.Ordered
import QuantumCircuit.Snapshot.Decode

/-! A snapshot describes the circuit it was written for, in every format that keeps its
laws. Encoding and decoding follow one another constructor by constructor: what is left open is
whether a parameter comes back out of its value, and whether the value nests too deep. -/
namespace QuantumCircuit

/-! ## Laws of a format -/

namespace Format

/-- The values that are put together of data: of finite numbers, of naturals of 64 bits, and of
records without repeated names. -/
inductive Written (F : Format) : F.Value → Prop
  | natural {n : Nat} (h : n < UInt64.size) : Written F (F.natural n)
  | double {x : Binary64} (h : x.isFinite = true) : Written F (F.double x)
  | text (s : String) : Written F (F.text s)
  | symbol (name : String) : Written F (F.symbol name)
  | list {vs : List F.Value} (h : ∀ v ∈ vs, Written F v) : Written F (F.list vs)
  | record {members : List (String × F.Value)} (hnodup : (members.map (·.1)).Nodup)
      (h : ∀ m ∈ members, Written F m.2) : Written F (F.record members)
  | tagged (name : String) {v : F.Value} (h : Written F v) : Written F (F.tagged name v)

/-- What is put into a value is found in it, containers are deeper than their contents, and
the text of a value reads as that value. Numbers that are not naturals have no law. -/
structure Lawful (F : Format) (depth : F.Value → Nat) : Prop where
  natural? {bound n : Nat} : bound ≤ UInt64.size → n < bound →
    F.natural? bound (F.natural n) = some n
  text? (s : String) : F.text? (F.text s) = some s
  symbol? (room : Nat) (name : String) : F.symbol? room (F.symbol name) = some name
  items? (vs : List F.Value) : F.items? (F.list vs) = some vs
  fields? {members : List (String × F.Value)} : (members.map (·.1)).Nodup →
    F.fields? (members.map (·.1)) (F.record members) = some (members.map (·.2))
  tagged? (name : String) (v : F.Value) : F.tagged? (F.tagged name v) = some (name, v)
  list_pos (vs : List F.Value) : 0 < depth (F.list vs)
  lt_list {vs : List F.Value} : ∀ v ∈ vs, depth v < depth (F.list vs)
  record_pos (members : List (String × F.Value)) : 0 < depth (F.record members)
  lt_record {members : List (String × F.Value)} :
    ∀ m ∈ members, depth m.2 < depth (F.record members)
  lt_tagged (name : String) (v : F.Value) : depth v < depth (F.tagged name v)
  read? {v : F.Value} : F.Written v → depth v ≤ F.limit → F.read? (F.write v) = some v

/-- The value is put together of data, and the reader finds `x` in it if it may open enough
containers. -/
structure Carries (F : Format) (depth : F.Value → Nat) {α : Type}
    (read : Nat → F.Value → Option α) (v : F.Value) (x : α) : Prop where
  written : F.Written v
  reads : ∀ room, depth v ≤ room → read room v = some x

theorem mapM_map_eq_some {α β : Type} {f : β → Option α} {enc : α → β} {xs : List α}
    (h : ∀ x ∈ xs, f (enc x) = some x) : (xs.map enc).mapM f = some xs := by
  induction xs with
  | nil => rfl
  | cons x xs ih =>
    rw [List.map_cons, List.mapM_cons, h x List.mem_cons_self,
      ih fun y hy => h y (List.mem_cons_of_mem _ hy)]
    rfl

namespace Lawful
variable {F : Format} {depth : F.Value → Nat} (laws : F.Lawful depth)
include laws

theorem exists_room_list {vs : List F.Value} {room : Nat} (h : depth (F.list vs) ≤ room) :
    ∃ r, room = r + 1 ∧ ∀ v ∈ vs, depth v ≤ r := by
  have hpos := laws.list_pos vs
  refine ⟨room - 1, by omega, fun v hv => ?_⟩
  have := laws.lt_list v hv
  omega

theorem exists_fields? {members : List (String × F.Value)} {room : Nat}
    (hnodup : (members.map (·.1)).Nodup) (h : depth (F.record members) ≤ room) :
    ∃ r, room = r + 1 ∧
      F.fields? (members.map (·.1)) (F.record members) = some (members.map (·.2)) ∧
      ∀ m ∈ members, depth m.2 ≤ r := by
  have hpos := laws.record_pos members
  refine ⟨room - 1, by omega, laws.fields? hnodup, fun m hm => ?_⟩
  have := laws.lt_record m hm
  omega

theorem exists_room_tagged {name : String} {v : F.Value} {room : Nat}
    (h : depth (F.tagged name v) ≤ room) : ∃ r, room = r + 1 ∧ depth v ≤ r := by
  have := laws.lt_tagged name v
  exact ⟨room - 1, by omega, by omega⟩

theorem exists_record? {members : List (String × F.Value)} {room : Nat}
    (hnodup : (members.map (·.1)).Nodup) (h : depth (F.record members) ≤ room) :
    ∃ r, F.record? (members.map (·.1)) room (F.record members) = some (r, members.map (·.2)) ∧
      ∀ m ∈ members, depth m.2 ≤ r := by
  obtain ⟨r, rfl, hfields, hmembers⟩ := laws.exists_fields? hnodup h
  exact ⟨r, by rw [record?, hfields, Option.map_some], hmembers⟩

/-! ## Pieces of a snapshot -/

theorem carries_natural {bound n : Nat} (hbound : bound ≤ UInt64.size) (h : n < bound) :
    F.Carries depth (fun _ => F.natural? bound) (F.natural n) n :=
  ⟨.natural (Nat.lt_of_lt_of_le h hbound), fun _ _ => laws.natural? hbound h⟩

theorem carries_word {n : Nat} (h : n < wordBound) :
    F.Carries depth (fun _ => F.natural? wordBound) (F.natural n) n :=
  laws.carries_natural (by decide) h

theorem carries_qubit {q : Qubit} (h : q.index < wordBound) :
    F.Carries depth (fun _ => F.qubit?) (F.qubit q) q where
  written := (laws.carries_word h).written
  reads room hroom := by rw [qubit?, qubit, (laws.carries_word h).reads room hroom, Option.map_some]

theorem carries_clbit {b : Clbit} (h : b.index < wordBound) :
    F.Carries depth (fun _ => F.clbit?) (F.clbit b) b where
  written := (laws.carries_word h).written
  reads room hroom := by rw [clbit?, clbit, (laws.carries_word h).reads room hroom, Option.map_some]

theorem carries_kind (k : Kind) : F.Carries depth F.kind? (F.symbol k.tag) k where
  written := .symbol _
  reads room _ := by
    rw [kind?, laws.symbol?, Option.bind_some]
    cases k <;> rfl

theorem carries_list {α : Type} {item? : Nat → F.Value → Option α} {enc : α → F.Value}
    {xs : List α} (h : ∀ x ∈ xs, F.Carries depth item? (enc x) x) :
    F.Carries depth (F.list? item?) (F.list (xs.map enc)) xs where
  written := .list (List.forall_mem_map.2 fun x hx => (h x hx).written)
  reads room hroom := by
    obtain ⟨r, rfl, hitems⟩ := laws.exists_room_list hroom
    have hreads : ∀ x ∈ xs, item? r (enc x) = some x := fun x hx =>
      (h x hx).reads r (hitems _ (List.mem_map_of_mem hx))
    rw [list?, laws.items?, Option.bind_some]
    exact mapM_map_eq_some hreads

theorem carries_control {c : Control} (h : c.qubit.index < wordBound) :
    F.Carries depth F.control? (F.control c) c where
  written := by
    refine .record (by simp) ?_
    simp only [List.forall_mem_cons]
    exact ⟨(laws.carries_qubit h).written, .symbol _, by simp⟩
  reads room hroom := by
    obtain ⟨r, hrecord, hdepth⟩ := laws.exists_record? (by simp) hroom
    have hqubit := (laws.carries_qubit h).reads r (hdepth _ List.mem_cons_self)
    obtain ⟨q, polarity⟩ := c
    have hfields : F.record? ["qubit", "kind"] room (F.control ⟨q, polarity⟩) =
      some (r, [F.qubit q, F.symbol _]) := hrecord
    rw [control?, hfields]
    dsimp only
    rw [hqubit, polarity?, laws.symbol?]
    cases polarity <;> rfl

theorem carries_gate {g : Gate} (hwords : ∀ q ∈ g.operands, q.index < wordBound)
    (hfinite : ∀ x ∈ g.params, x.isFinite = true)
    (hparams : ∀ x ∈ g.params, F.double? (F.double x) = some x) :
    F.Carries depth F.gate? (F.gate g) g := by
  have hcontrols := laws.carries_list fun c hc => laws.carries_control
    (hwords c.qubit (List.mem_append_left _ (List.mem_map_of_mem hc)))
  have htargets := laws.carries_list fun q hq =>
    laws.carries_qubit (hwords q (List.mem_append_right _ hq))
  have hdoubles : F.Carries depth (F.list? fun _ => F.double?) (F.list (g.params.map F.double))
      g.params := laws.carries_list fun x hx => ⟨.double (hfinite x hx), fun _ _ => hparams x hx⟩
  constructor
  case written =>
    refine .record (by simp) ?_
    simp only [List.forall_mem_cons]
    exact ⟨.symbol _, hcontrols.written, htargets.written, hdoubles.written, by simp⟩
  case reads =>
    intro room hroom
    obtain ⟨r, hrecord, hdepth⟩ := laws.exists_record? (by simp) hroom
    simp only [List.forall_mem_cons] at hdepth
    obtain ⟨hkind, hcontrolsDepth, htargetsDepth, hparamsDepth, -⟩ := hdepth
    have hfields : F.record? ["op_type", "controls", "targets", "params"] room (F.gate g) =
      some (r, [F.symbol g.kind.tag, F.list (g.controls.toList.map F.control),
        F.list (g.targets.map F.qubit), F.list (g.params.map F.double)]) := hrecord
    rw [gate?, hfields]
    dsimp only
    rw [(laws.carries_kind g.kind).reads r hkind, hcontrols.reads r hcontrolsDepth,
      htargets.reads r htargetsDepth, hdoubles.reads r hparamsDepth]
    simp

theorem carries_effect {e : Effect} (hwords : ∀ q ∈ e.targets, q.index < wordBound)
    (hclbits : ∀ b ∈ e.clbits, b.index < wordBound) :
    F.Carries depth F.effect? (F.effect e) e := by
  have htargets := laws.carries_list fun q hq => laws.carries_qubit (hwords q hq)
  have hclbits := laws.carries_list fun b hb => laws.carries_clbit (hclbits b hb)
  constructor
  case written =>
    refine .record (by simp) ?_
    simp only [List.forall_mem_cons]
    exact ⟨.symbol _, htargets.written, hclbits.written, by simp⟩
  case reads =>
    intro room hroom
    obtain ⟨r, hrecord, hdepth⟩ := laws.exists_record? (by simp) hroom
    simp only [List.forall_mem_cons] at hdepth
    obtain ⟨hkind, htargetsDepth, hclbitsDepth, -⟩ := hdepth
    have hfields : F.record? ["op_type", "targets", "classics"] room (F.effect e) =
      some (r, [F.symbol e.kind.tag, F.list (e.targets.map F.qubit),
        F.list (e.clbits.map F.clbit)]) := hrecord
    rw [effect?, hfields]
    dsimp only
    rw [(laws.carries_kind e.kind).reads r hkind, htargets.reads r htargetsDepth,
      hclbits.reads r hclbitsDepth]
    rfl

theorem carries_register {reg : Register} (hstart : reg.start.index < wordBound)
    (hsize : reg.size < wordBound) : F.Carries depth F.register? (F.register reg) reg := by
  have hstart := laws.carries_clbit hstart
  have hsize := laws.carries_word hsize
  constructor
  case written =>
    refine .record (by simp) ?_
    simp only [List.forall_mem_cons]
    exact ⟨hstart.written, hsize.written, by simp⟩
  case reads =>
    intro room hroom
    obtain ⟨r, hrecord, hdepth⟩ := laws.exists_record? (by simp) hroom
    simp only [List.forall_mem_cons] at hdepth
    have hfields : F.record? ["start", "size"] room (F.register reg) =
      some (r, [F.clbit reg.start, F.natural reg.size]) := hrecord
    rw [register?, hfields]
    dsimp only
    rw [hstart.reads r hdepth.1, hsize.reads r hdepth.2.1]
    rfl

theorem carries_pair {e : Qubit × Qubit} (hkey : e.1.index < wordBound)
    (hvalue : e.2.index < wordBound) :
    F.Carries depth F.pair? (F.list [F.qubit e.1, F.qubit e.2]) e := by
  have hkey := laws.carries_qubit hkey
  have hvalue := laws.carries_qubit hvalue
  constructor
  case written =>
    refine .list ?_
    simp only [List.forall_mem_cons]
    exact ⟨hkey.written, hvalue.written, by simp⟩
  case reads =>
    intro room hroom
    obtain ⟨r, rfl, hdepth⟩ := laws.exists_room_list hroom
    simp only [List.forall_mem_cons] at hdepth
    rw [pair?, laws.items?]
    dsimp only
    rw [hkey.reads r hdepth.1, hvalue.reads r hdepth.2.1]
    rfl

theorem carries_layout {l : Layout}
    (h : ∀ e ∈ l.entries, e.1.index < wordBound ∧ e.2.index < wordBound) :
    F.Carries depth F.layout? (F.layout l) l := by
  have hentries := laws.carries_list fun e he => laws.carries_pair (h e he).1 (h e he).2
  refine ⟨hentries.written, fun room hroom => ?_⟩
  rw [layout?, layout, hentries.reads room hroom, Option.map_some, OrderedMap.ofList_entries]

end Lawful
end Format

/-! ## Operations -/

namespace Operation

mutual
/-- Qubits, bits and register sizes are words. -/
def inWords : Operation → Bool
  | .gate g => g.operands.all (·.index < wordBound)
  | .compound children => allInWords children
  | .effect e => e.targets.all (·.index < wordBound) && e.clbits.all (·.index < wordBound)
  | .conditional cond body =>
    cond.register.start.index < wordBound && cond.register.size < wordBound && body.inWords

def allInWords : List Operation → Bool
  | [] => true
  | op :: rest => op.inWords && allInWords rest
end

mutual
/-- The parameters of all gates, those of children and bodies included. -/
def gateParams : Operation → List Binary64
  | .gate g => g.params
  | .compound children => gateParamsOfAll children
  | .effect _ => []
  | .conditional _ body => body.gateParams

def gateParamsOfAll : List Operation → List Binary64
  | [] => []
  | op :: rest => op.gateParams ++ gateParamsOfAll rest
end

theorem allInWords_eq (ops : List Operation) : allInWords ops = ops.all inWords := by
  induction ops with
  | nil => rfl
  | cons op rest ih => rw [allInWords, ih, List.all_cons]

theorem mem_gateParamsOfAll {x : Binary64} {ops : List Operation} :
    x ∈ gateParamsOfAll ops ↔ ∃ op ∈ ops, x ∈ op.gateParams := by
  induction ops with
  | nil => simp [gateParamsOfAll]
  | cons op rest ih => simp [gateParamsOfAll, ih]

end Operation

namespace Format
open Operation

theorem operations_eq (F : Format) (ops : List Operation) :
    F.operations ops = ops.map F.operation := by
  induction ops with
  | nil => rfl
  | cons op rest ih => rw [operations, ih, List.map_cons]

namespace Lawful
variable {F : Format} {depth : F.Value → Nat} (laws : F.Lawful depth)
include laws

-- The reader of operations does not go through those of lists and records, which would hide
-- from its recursion how many containers are left.
theorem carries_compound {children : List Operation}
    (h : ∀ c ∈ children, F.Carries depth F.operation? (F.operation c) c) :
    F.Carries depth F.operation? (F.operation (.compound children)) (.compound children) := by
  rw [operation, operations_eq]
  constructor
  case written =>
    refine .tagged _ (.record (by simp) ?_)
    exact List.forall_mem_singleton.2
      (.list (List.forall_mem_map.2 fun c hc => (h c hc).written))
  case reads =>
    intro room hroom
    obtain ⟨r₁, rfl, hdepth₁⟩ := laws.exists_room_tagged hroom
    obtain ⟨r₂, rfl, hfields, hdepth₂⟩ := laws.exists_fields? (by simp) hdepth₁
    obtain ⟨r, rfl, hdepth⟩ := laws.exists_room_list (hdepth₂ _ (List.mem_singleton_self _))
    have hchildren : ∀ c ∈ children, F.operation? r (F.operation c) = some c :=
      fun c hc => (h c hc).reads r (hdepth _ (List.mem_map_of_mem hc))
    simp only [List.map_cons, List.map_nil] at hfields
    simp only [operation?, laws.tagged?, hfields]
    rw [laws.items?, Option.bind_some, mapM_map_eq_some hchildren, Option.map_some]

theorem carries_conditional {cond : Condition} {body : Operation}
    (hstart : cond.register.start.index < wordBound) (hsize : cond.register.size < wordBound)
    (h : F.Carries depth F.operation? (F.operation body) body) :
    F.Carries depth F.operation? (F.operation (.conditional cond body))
      (.conditional cond body) := by
  have hregister := laws.carries_register hstart hsize
  have hvalue := laws.carries_natural (Nat.le_refl _) cond.value.toNat_lt
  rw [operation]
  constructor
  case written =>
    refine .tagged _ (.record (by simp) ?_)
    simp only [List.forall_mem_cons]
    exact ⟨h.written, hregister.written, hvalue.written, by simp⟩
  case reads =>
    intro room hroom
    obtain ⟨r₁, rfl, hdepth₁⟩ := laws.exists_room_tagged hroom
    obtain ⟨r, rfl, hfields, hdepth⟩ := laws.exists_fields? (by simp) hdepth₁
    simp only [List.forall_mem_cons] at hdepth
    simp only [List.map_cons, List.map_nil] at hfields
    simp only [operation?, laws.tagged?, hfields]
    rw [h.reads r hdepth.1, hregister.reads r hdepth.2.1, hvalue.reads r hdepth.2.2.1]
    simp

theorem carries_operation {op : Operation} (hwords : op.inWords = true)
    (hfinite : ∀ x ∈ op.gateParams, x.isFinite = true)
    (hparams : ∀ x ∈ op.gateParams, F.double? (F.double x) = some x) :
    F.Carries depth F.operation? (F.operation op) op := by
  induction op using inductionOn with
  | gate g =>
    have hgate := laws.carries_gate (by simpa [inWords] using hwords) hfinite hparams
    refine ⟨.tagged _ hgate.written, fun room hroom => ?_⟩
    obtain ⟨r, rfl, hdepth⟩ := laws.exists_room_tagged hroom
    simp only [operation, operation?, laws.tagged?]
    rw [hgate.reads r hdepth, Option.map_some]
  | effect e =>
    simp only [inWords, Bool.and_eq_true, List.all_eq_true, decide_eq_true_eq] at hwords
    have heffect := laws.carries_effect hwords.1 hwords.2
    refine ⟨.tagged _ heffect.written, fun room hroom => ?_⟩
    obtain ⟨r, rfl, hdepth⟩ := laws.exists_room_tagged hroom
    simp only [operation, operation?, laws.tagged?]
    rw [heffect.reads r hdepth, Option.map_some]
  | compound children ih =>
    rw [inWords, allInWords_eq, List.all_eq_true] at hwords
    refine laws.carries_compound fun c hc => ih c hc (hwords c hc) (fun x hx => ?_) fun x hx => ?_
    · exact hfinite x (mem_gateParamsOfAll.2 ⟨c, hc, hx⟩)
    · exact hparams x (mem_gateParamsOfAll.2 ⟨c, hc, hx⟩)
  | conditional cond body ih =>
    simp only [inWords, Bool.and_eq_true, decide_eq_true_eq] at hwords
    exact laws.carries_conditional hwords.1.1 hwords.1.2 (ih hwords.2 hfinite hparams)

end Lawful
end Format

/-! ## Circuits -/

namespace Circuit

/-- All numbers of the circuit are words. -/
structure InWords (c : Circuit) : Prop where
  numQubits : c.numQubits < wordBound
  numClbits : c.numClbits < wordBound
  ops : Operation.allInWords c.ops = true
  initial : ∀ e ∈ c.initial.entries, e.1.index < wordBound ∧ e.2.index < wordBound
  output : ∀ e ∈ c.output.entries, e.1.index < wordBound ∧ e.2.index < wordBound

/-- The parameters of all gates of the circuit. -/
def params (c : Circuit) : List Binary64 := Operation.gateParamsOfAll c.ops

end Circuit

namespace Format.Lawful
variable {F : Format} {depth : F.Value → Nat} (laws : F.Lawful depth) {c : Circuit}
include laws

theorem carries_circuit (hwords : c.InWords) (hfinite : ∀ x ∈ c.params, x.isFinite = true)
    (hparams : ∀ x ∈ c.params, F.double? (F.double x) = some x)
    (hdepth : depth (F.circuit c) ≤ F.limit) :
    F.Written (F.circuit c) ∧ F.circuit? (F.circuit c) = some c := by
  have hinWords := hwords.ops
  rw [Operation.allInWords_eq, List.all_eq_true] at hinWords
  have hqubits := laws.carries_word hwords.numQubits
  have hclbits := laws.carries_word hwords.numClbits
  have hops := laws.carries_list fun op hop => laws.carries_operation (hinWords op hop)
    (fun x hx => hfinite x (Operation.mem_gateParamsOfAll.2 ⟨op, hop, hx⟩))
    (fun x hx => hparams x (Operation.mem_gateParamsOfAll.2 ⟨op, hop, hx⟩))
  have hinitial := laws.carries_layout hwords.initial
  have houtput := laws.carries_layout hwords.output
  rw [circuit, operations_eq] at hdepth ⊢
  constructor
  · refine .record (by simp) ?_
    simp only [List.forall_mem_cons]
    exact ⟨.text _, hqubits.written, hclbits.written, hops.written, hinitial.written,
      houtput.written, by simp⟩
  · obtain ⟨r, hrecord, hdepth⟩ := laws.exists_record? (by simp) hdepth
    simp only [List.forall_mem_cons] at hdepth
    obtain ⟨-, hqubitsDepth, hclbitsDepth, hopsDepth, hinitialDepth, houtputDepth, -⟩ := hdepth
    rw [circuit?]
    simp only [List.map_cons, List.map_nil] at hrecord
    rw [hrecord]
    dsimp only
    rw [laws.text?, hqubits.reads r hqubitsDepth, hclbits.reads r hclbitsDepth,
      hops.reads r hopsDepth, hinitial.reads r hinitialDepth, houtput.reads r houtputDepth]
    rfl

theorem decode?_encode (hwords : c.InWords) (hfinite : ∀ x ∈ c.params, x.isFinite = true)
    (hparams : ∀ x ∈ c.params, F.double? (F.double x) = some x)
    (hdepth : depth (F.circuit c) ≤ F.limit) : F.decode? (F.encode c) = some c := by
  obtain ⟨hwritten, hcircuit⟩ := laws.carries_circuit hwords hfinite hparams hdepth
  rw [decode?, encode, laws.read? hwritten hdepth, Option.bind_some, hcircuit]

end Format.Lawful

/-! ## JSON is lawful -/

namespace Json

mutual
/-- How many containers of the value lie within one another. -/
def depth : Json → Nat
  | .array items => itemsDepth items + 1
  | .object members => membersDepth members + 1
  | .null | .bool _ | .number _ | .string _ => 0

def itemsDepth : List Json → Nat
  | [] => 0
  | v :: rest => max v.depth (itemsDepth rest)

def membersDepth : List (Option String × Json) → Nat
  | [] => 0
  | (_, v) :: rest => max v.depth (membersDepth rest)
end

theorem depth_lt_array {items : List Json} : ∀ v ∈ items, v.depth < (array items).depth := by
  suffices h : ∀ v ∈ items, v.depth ≤ itemsDepth items from fun v hv => by
    rw [depth]
    exact Nat.lt_succ_of_le (h v hv)
  induction items with
  | nil => simp
  | cons w rest ih =>
    rw [List.forall_mem_cons, itemsDepth]
    exact ⟨Nat.le_max_left _ _, fun v hv => Nat.le_trans (ih v hv) (Nat.le_max_right _ _)⟩

theorem depth_lt_record {members : List (String × Json)} :
    ∀ m ∈ members, m.2.depth < (record members).depth := by
  suffices h : ∀ m ∈ members, m.2.depth ≤ membersDepth (members.map fun m => (some m.1, m.2)) from
      fun m hm => by
    rw [record, depth]
    exact Nat.lt_succ_of_le (h m hm)
  induction members with
  | nil => simp
  | cons m rest ih =>
    rw [List.forall_mem_cons, List.map_cons, membersDepth]
    exact ⟨Nat.le_max_left _ _, fun m hm => Nat.le_trans (ih m hm) (Nat.le_max_right _ _)⟩

theorem natBelow?_nat {bound n : Nat} (h : n < bound) : natBelow? bound (.nat n) = some n := by
  have hvalue : (Numeral.ofNat n).toNat? = some n :=
    congrArg some (Digit.value_digitsOf n)
  rw [nat, natBelow?, hvalue, Option.filter_some, if_pos (by simpa using h)]

theorem filter_key_eq {members : List (String × Json)} (hnodup : (members.map (·.1)).Nodup)
    {m : String × Json} (hm : m ∈ members) : members.filter (·.1 = m.1) = [m] := by
  induction members with
  | nil => cases hm
  | cons a rest ih =>
    rw [List.map_cons, List.nodup_cons] at hnodup
    have hapart : ∀ b ∈ rest, b.1 ≠ a.1 := by
      intro b hb heq
      exact hnodup.1 (heq ▸ List.mem_map_of_mem hb)
    rcases List.mem_cons.1 hm with rfl | hm
    · rw [List.filter_cons_of_pos (by simp), List.filter_eq_nil_iff.2]
      intro b hb
      simpa using hapart b hb
    · rw [List.filter_cons_of_neg (by simpa using (hapart m hm).symm), ih hnodup.2 hm]

theorem member?_of_mem {members : List (String × Json)} (hnodup : (members.map (·.1)).Nodup)
    {m : String × Json} (hm : m ∈ members) :
    member? (members.map fun m => (some m.1, m.2)) m.1 = some (some m.2) := by
  have hfilter : (members.map fun m => (some m.1, m.2)).filter (·.1 = some m.1) =
      [(some m.1, m.2)] := by
    rw [List.filter_map]
    have hsame : (fun e : Option String × Json => decide (e.1 = some m.1)) ∘
        (fun e : String × Json => (some e.1, e.2)) = fun e => decide (e.1 = m.1) := by
      funext e
      simp
    rw [hsame, filter_key_eq hnodup hm, List.map_singleton]
  unfold member?
  rw [hfilter]

/-- The fields of a record are found under their names. -/
theorem fields?_record {members : List (String × Json)} (hnodup : (members.map (·.1)).Nodup) :
    fields? (members.map (·.1)) (record members) = some (members.map (·.2)) := by
  have hslots : ∀ ms : List (String × Json), (∀ m ∈ ms, m ∈ members) →
      (ms.map (·.1)).mapM (member? (members.map fun m => (some m.1, m.2))) =
        some (ms.map fun m => some m.2) := by
    intro ms hms
    induction ms with
    | nil => rfl
    | cons m ms ih =>
      rw [List.map_cons, List.mapM_cons, member?_of_mem hnodup (hms m List.mem_cons_self),
        ih fun e he => hms e (List.mem_cons_of_mem _ he)]
      rfl
  have hkeys : (members.map fun m => (some m.1, m.2)).any (·.1.isNone) = false := by simp
  have hall : ∀ ms : List (String × Json), (ms.map fun m => some m.2).mapM id =
      some (ms.map (·.2)) := by
    intro ms
    induction ms with
    | nil => rfl
    | cons m ms ih => rw [List.map_cons, List.mapM_cons, ih]; rfl
  rw [fields?, record, slots?, hkeys, hslots members fun _ hm => hm]
  exact hall members

theorem isPlain_text (s : String) : (text s).IsPlain := by
  rw [text, IsPlain, tokens, List.forall_mem_singleton]
  trivial

theorem isPlain_binary64 {x : Binary64} (h : x.isFinite = true) : (binary64 x).IsPlain := by
  rw [binary64, if_pos h]
  exact isPlain_number (Numeral.isPlain_ofBinary64 x)

theorem isPlain_of_written {v : format.Value} (h : format.Written v) : Json.IsPlain v := by
  induction h with
  | natural _ => exact isPlain_number (Numeral.isPlain_ofNat _)
  | double h => exact isPlain_binary64 h
  | text s => exact isPlain_text s
  | symbol name => exact isPlain_text name
  | list _ ih => exact isPlain_array ih
  | record _ _ ih => exact isPlain_record ih
  | tagged name _ ih => exact isPlain_record (List.forall_mem_singleton.2 ih)

theorem lawful_format : format.Lawful depth where
  natural? _ h := natBelow?_nat h
  text? _ := rfl
  symbol? _ _ := rfl
  items? _ := rfl
  fields? := fields?_record
  tagged? _ _ := rfl
  list_pos _ := Nat.succ_pos _
  lt_list := depth_lt_array
  record_pos _ := Nat.succ_pos _
  lt_record := depth_lt_record
  lt_tagged name v := depth_lt_record (name, v) (List.mem_singleton_self _)
  read? h _ := parse?_write (isPlain_of_written h)

end Json

/-! ## Round trips -/

/-- A snapshot describes the circuit it was written for, if the parameters are finite: in every
lawful format in which they come back out of their values, as long as the circuit does not nest
too deep for it, and so in JSON. -/
theorem Circuit.ofSnapshot?_snapshot {c : Circuit} (hwords : c.InWords)
    (hfinite : ∀ x ∈ c.params, x.isFinite = true) :
    (∀ (F : Format) (depth : F.Value → Nat), F.Lawful depth →
        (∀ x ∈ c.params, x.isFinite = true → F.double? (F.double x) = some x) →
        depth (F.circuit c) ≤ F.limit → F.decode? (F.encode c) = some c) ∧
      ((∀ x ∈ c.params, x.isFinite = true → Json.binary64? (Json.binary64 x) = some x) →
        Json.depth (Json.format.circuit c) ≤ Json.format.limit →
        ofSnapshot? c.snapshot = some c) := by
  constructor
  · intro F depth laws hread hdepth
    exact laws.decode?_encode hwords hfinite (fun x hx => hread x hx (hfinite x hx)) hdepth
  · intro hread hdepth
    exact Json.lawful_format.decode?_encode hwords hfinite
      (fun x hx => hread x hx (hfinite x hx)) hdepth

/-- A name with escapes, a condition inside a compound with a compound inside it, controls
of both kinds, the greatest numbers, and the parameters π/2, -0 and the least double. -/
def Circuit.keepsake : Circuit where
  name := "say \"hi\" \\ tab\there \x01 é 😀"
  numQubits := 3
  numClbits := 4294967295
  ops := [
    .compound [
      .gate {
        kind := .rz, controls := .ofList [.pos ⟨1⟩, .neg ⟨0⟩], targets := [⟨2⟩]
        params := [⟨0x3ff921fb54442d18⟩] },
      .conditional ⟨⟨⟨4⟩, 3⟩, 18446744073709551615⟩ (.compound [
        .gate {
          kind := .u2, targets := [⟨4294967295⟩], params := [⟨0x8000000000000000⟩, ⟨1⟩] }])],
    .effect { kind := .measure, targets := [⟨0⟩, ⟨1⟩], clbits := [⟨1⟩, ⟨0⟩] }]
  initial := .ofList [(⟨7⟩, ⟨0⟩), (⟨0⟩, ⟨7⟩)]

theorem Circuit.ofSnapshot?_keepsake :
    keepsake.InWords ∧ (∀ x ∈ keepsake.params, x.isFinite = true) ∧
      Json.format.Lawful Json.depth ∧
      (∀ x ∈ keepsake.params, x.isFinite = true →
        Json.format.double? (Json.format.double x) = some x) ∧
      Json.depth (Json.format.circuit keepsake) ≤ Json.format.limit ∧
      Json.format.decode? (Json.format.encode keepsake) = some keepsake ∧
      ofSnapshot? keepsake.snapshot = some keepsake := by
  have hwords : keepsake.InWords := ⟨by decide, by decide, by decide, by decide, by decide⟩
  have hfinite : ∀ x ∈ keepsake.params, x.isFinite = true := by decide
  have hread : ∀ x ∈ keepsake.params, x.isFinite = true →
      Json.format.double? (Json.format.double x) = some x := by decide +kernel
  have hdepth : Json.depth (Json.format.circuit keepsake) ≤ Json.format.limit := by decide
  obtain ⟨hall, hjson⟩ := ofSnapshot?_snapshot hwords hfinite
  exact ⟨hwords, hfinite, Json.lawful_format, hread, hdepth,
    hall _ _ Json.lawful_format hread hdepth, hjson hread hdepth⟩

end QuantumCircuit
