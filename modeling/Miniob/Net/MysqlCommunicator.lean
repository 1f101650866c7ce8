import Mathlib.Data.List.Infix
import Miniob.Basic
import Miniob.Net.MysqlPackets

/-!
# Answers to a MySQL client

A query packet is read, and its result is written as packets. The sequence id of the first of them
is one more than that of the query, except where the result is only a text: that packet has the
default id.

* `MysqlCommunicator`: the state of a connection, with the packets that have been written.
* `MysqlCommunicator.serve`: a query packet is read and a result is written.
* `Answered`: what a client needs. `answered_iff` says exactly when it gets it.

The client has been authenticated. What the other stages do with the query is the result that is
given to `serve`. Writing to the socket succeeds.
-/

namespace Miniob.Net

open Miniob.Common Miniob.Lib

/-! ## Results -/

/-- A return code with its name. Source: `rc.cpp`, `strrc` -/
structure ReturnCode where
  /-- The number, 0 for `SUCCESS`. -/
  number : ℕ
  /-- The name. -/
  name : CString

/-- The rows that an operator returns: the texts of their cells, where these can be read. -/
structure PhysicalOperator where
  /-- What `open` returns. -/
  openCode : ReturnCode
  /-- The rows, until `next` does not return `SUCCESS`. -/
  rows : List (List (Option CString))

/-- Source: `sql_result.h`, `class SqlResult` -/
structure SqlResult where
  /-- `return_code_` -/
  returnCode : ReturnCode
  /-- `state_string_` -/
  stateString : List Byte := []
  /-- `operator_` -/
  operator : Option PhysicalOperator := none
  /-- `tuple_schema_` -/
  tupleSchema : List TupleCellSpec := []

/-- Source: `session_event.h`, `class SessionEvent` -/
structure SessionEvent where
  /-- `sql_result_` -/
  sqlResult : Option SqlResult := none
  /-- `response_` -/
  response : List Byte := []

/-- A query packet of a client: the payload begins with the command `COM_QUERY`. -/
structure QueryPacket where
  /-- The sequence id. -/
  sequenceId : Byte
  /-- The payload. -/
  payload : List Byte
  length_lt : payload.length < 2 ^ 24
  command : payload.head? = some 3

/-! ## The connection -/

/-- The packets that are written. -/
inductive PacketKind
  /-- An `OkPacket`. -/
  | ok
  /-- An `EofPacket`. -/
  | eof
  /-- An `ErrPacket`. -/
  | err
  /-- The number of columns. -/
  | columnCount
  /-- A column. -/
  | columnDefinition
  /-- A row with these strings. -/
  | row (strings : List CString)

/-- The packet is a column definition. -/
def PacketKind.isColumnDefinition : PacketKind → Bool
  | columnDefinition => true
  | _ => false

/-- A packet that has been written. -/
structure Packet where
  /-- What it is. -/
  kind : PacketKind
  /-- All its bytes. -/
  bytes : List Byte

/-- Source: `mysql_communicator.h`, `class MysqlCommunicator` -/
structure MysqlCommunicator where
  /-- `client_capabilities_flag_` -/
  capabilities : BitVec 32
  /-- `sequence_id_` -/
  sequenceId : Byte := 0
  /-- The packets that have been written. -/
  sent : List Packet := []

/-- An encoder, given the sequence id, with the kind of its packet. -/
structure PacketWriter where
  /-- What the packet is. -/
  kind : PacketKind
  /-- The encoder. -/
  encode : Byte → Option (List Byte)

/-- Texts that are cut off like those of `snprintf`, for a buffer of `size` bytes. -/
def snprintf (size : ℕ) (text : List Byte) : List Byte := text.take (size - 1)

/-- Source: `mysql_communicator.cpp`, `MysqlCommunicator::write_state` -/
def SqlResult.stateMessage (r : SqlResult) : List Byte :=
  if r.stateString.isEmpty then
    snprintf 2048 (if r.returnCode.number = 0 then bytesOf "SUCCESS" else bytesOf "FAILURE")
  else
    snprintf 2048
      (r.returnCode.name.bytes ++ bytesOf " > " ++ (CString.ofBytes r.stateString).bytes)

/-- The operator of a result, opened, or else the result whose state is written.
Source: `mysql_communicator.cpp`, `MysqlCommunicator::write_result` -/
def SqlResult.openOperator (r : SqlResult) : Except SqlResult PhysicalOperator :=
  if r.returnCode.number ≠ 0 then .error r
  else match r.operator with
    | none => .error r
    | some oper =>
      if oper.openCode.number ≠ 0 then .error { r with returnCode := oper.openCode } else .ok oper

/-- The text that the client asks for when it connects. -/
def versionCommentQuery : List Byte := bytesOf "select @@version_comment"

/-- Source: `mysql_communicator.cpp`, `create_version_comment_sql_result` -/
def versionCommentResult : SqlResult where
  returnCode := ⟨0, ⟨bytesOf "SUCCESS", by decide⟩⟩
  operator := some
    { openCode := ⟨0, ⟨bytesOf "SUCCESS", by decide⟩⟩
      rows := [[some ⟨bytesOf "MiniOB", by decide⟩]] }
  tupleSchema := [⟨⟨[], by decide⟩, ⟨bytesOf "@@version_comment", by decide⟩⟩]

/-- The text before the first zero is white space. Source: `string.cpp`, `is_blank` -/
def isBlankText (query : List Byte) : Bool :=
  (CString.ofBytes query).bytes.all fun b => isspace (Char.ofNat b.val)

/-- The length of a payload in a signed bit-field.
Source: `mysql_communicator.cpp`, `struct PacketHeader` -/
def payloadLength (announced : BitVec 24) : Int := announced.toInt

namespace MysqlCommunicator

variable (comm : MysqlCommunicator)

/-- A packet has been written with the next sequence id. -/
def advance (p : Packet) : MysqlCommunicator :=
  { comm with sequenceId := comm.sequenceId + 1, sent := comm.sent ++ [p] }

/-- A packet with the next sequence id, `sequence_id_++`. -/
def sendNext (w : PacketWriter) : Option MysqlCommunicator := do
  let bytes ← w.encode comm.sequenceId
  return comm.advance ⟨w.kind, bytes⟩

/-- Packets one after the other. -/
def sendEach : MysqlCommunicator → List PacketWriter → Option MysqlCommunicator
  | comm, [] => some comm
  | comm, w :: ws => do sendEach (← comm.sendNext w) ws

/-- Source: `mysql_communicator.cpp`, `MysqlCommunicator::send_packet` -/
def sendPacket (kind : PacketKind) (encode : BitVec 32 → Option (List Byte)) :
    Option MysqlCommunicator := do
  let bytes ← encode comm.capabilities
  return { comm with sent := comm.sent ++ [⟨kind, bytes⟩] }

/-- Source: `mysql_communicator.cpp`, `MysqlCommunicator::write_state` -/
def writeState (r : SqlResult) : Option MysqlCommunicator :=
  if r.returnCode.number = 0 then
    comm.sendNext ⟨.ok, fun id =>
      OkPacket.encode comm.capabilities { sequenceId := id, info := r.stateMessage }⟩
  else
    comm.sendNext ⟨.err, fun id =>
      ErrPacket.encode comm.capabilities
        { sequenceId := id, errorCode := r.returnCode.number, errorMessage := r.stateMessage }⟩

/-- Source: `mysql_communicator.cpp`, `MysqlCommunicator::send_column_definition` -/
def sendColumnDefinition (schema : List TupleCellSpec) : Option MysqlCommunicator :=
  if schema.isEmpty then some comm
  else do
    let comm₁ ← comm.sendNext
      ⟨.columnCount, fun id => columnCountBytes comm.capabilities id schema.length⟩
    let comm₂ ← comm₁.sendEach
      (schema.map fun spec => ⟨.columnDefinition, fun id => columnDefinitionBytes id spec⟩)
    if hasFlag comm.capabilities clientDeprecateEof then return comm₂
    else comm₂.sendNext ⟨.eof, fun id =>
      EofPacket.encode comm.capabilities { sequenceId := id, statusFlags := 0x02 }⟩

/-- Rows without cells are not sent.
Source: `mysql_communicator.cpp`, `MysqlCommunicator::send_result_rows` -/
def sendResultRows (rows : List (List (Option CString))) (noColumnDef : Bool) :
    Option MysqlCommunicator := do
  let comm₁ ← comm.sendEach ((rows.filter fun row => !row.isEmpty).map fun row =>
    ⟨.row (rowStrings row), fun id => rowBytes id row⟩)
  if hasFlag comm.capabilities clientDeprecateEof || noColumnDef then
    comm₁.sendNext ⟨.ok, fun id =>
      OkPacket.encode comm.capabilities { sequenceId := id, affectedRows := rows.length }⟩
  else
    comm₁.sendNext ⟨.eof, fun id => EofPacket.encode comm.capabilities { sequenceId := id }⟩

/-- Without a result the response is sent, and its packet has the default sequence id. The length of
the response is an `int`.
Source: `mysql_communicator.cpp`, `MysqlCommunicator::write_result` -/
def writeResult (event : SessionEvent) : Option MysqlCommunicator :=
  match event.sqlResult with
  | none => do
    let info ← storeFixLengthString event.response (wrap32 event.response.length)
    comm.sendPacket .ok fun capabilities => OkPacket.encode capabilities { info := info.bytes }
  | some r =>
    match r.openOperator with
    | .error r' => comm.writeState r'
    | .ok oper => do
      let comm₁ ← comm.sendColumnDefinition r.tupleSchema
      comm₁.sendResultRows oper.rows r.tupleSchema.isEmpty

/-- The query of a packet, if there can be a vector for its payload.
Source: `mysql_communicator.cpp`, `MysqlCommunicator::read_event`, `decode_query_packet` -/
def readEvent (packet : QueryPacket) : Option (MysqlCommunicator × List Byte) :=
  if payloadLength (BitVec.ofNat 24 packet.payload.length) < 0 then none
  else some ({ comm with sequenceId := packet.sequenceId + 1 }, packet.payload.tail ++ bytesOf ";")

/-- A query and its result. A blank query has no answer.
Source: `mysql_communicator.cpp`, `MysqlCommunicator::read_event`; `session_stage.cpp`,
`SessionStage::handle_request` -/
def serve (packet : QueryPacket) (event : SessionEvent) : Option MysqlCommunicator := do
  let (comm₁, query) ← comm.readEvent packet
  if versionCommentQuery <:+: query then
    comm₁.writeResult { sqlResult := some versionCommentResult }
  else if isBlankText query then return comm₁
  else comm₁.writeResult event

/-! ## Sending -/

variable {comm} {ws : List PacketWriter}

theorem sendEach_append (ws ws' : List PacketWriter) :
    comm.sendEach (ws ++ ws') = (comm.sendEach ws).bind fun comm' => comm'.sendEach ws' := by
  induction ws generalizing comm with
  | nil => rfl
  | cons w ws ih =>
    rw [List.cons_append, sendEach, sendEach, Option.bind_eq_bind, Option.bind_assoc]
    congr 1
    funext comm'
    exact ih

theorem sendEach_singleton (w : PacketWriter) : comm.sendEach [w] = comm.sendNext w :=
  Option.bind_fun_some _

/-- Sending leaves the capabilities. -/
theorem capabilities_sendNext {w : PacketWriter} {comm' : MysqlCommunicator}
    (h : comm.sendNext w = some comm') : comm'.capabilities = comm.capabilities := by
  obtain ⟨bytes, -, heq⟩ := Option.bind_eq_some_iff.mp h
  rw [← Option.some.inj heq]
  rfl

theorem capabilities_sendEach {comm' : MysqlCommunicator} (h : comm.sendEach ws = some comm') :
    comm'.capabilities = comm.capabilities := by
  induction ws generalizing comm with
  | nil => rw [← Option.some.inj h]
  | cons w ws ih =>
    obtain ⟨comm₁, hnext, hrest⟩ := Option.bind_eq_some_iff.mp h
    exact (ih hrest).trans (capabilities_sendNext hnext)

end MysqlCommunicator

/-- The packet of an encoder. -/
def Packet.IsOf (w : PacketWriter) (p : Packet) : Prop :=
  p.kind = w.kind ∧ ∃ id, w.encode id = some p.bytes

/-- The encoder writes packets, or it does not whatever the sequence id is. -/
def PacketWriter.Sound (w : PacketWriter) : Prop := Writes w.encode (w.encode 0 ≠ none)

/-- The condition of an encoder is that it writes a packet. -/
theorem Writes.fits_iff {encode : Byte → Option (List Byte)} {fits : Prop}
    (h : Writes encode fits) : encode 0 ≠ none ↔ fits := by
  constructor
  · intro hne
    by_contra hfits
    exact hne ((h 0).2 hfits)
  · intro hfits
    obtain ⟨bytes, hbytes, -⟩ := (h 0).1 hfits
    rw [hbytes]
    exact Option.some_ne_none _

theorem Writes.sound {w : PacketWriter} {fits : Prop} (h : Writes w.encode fits) : w.Sound :=
  h.congr h.fits_iff.symm

/-- **What is sent** by encoders one after the other. By induction on them. -/
theorem MysqlCommunicator.sendEach_spec {ws : List PacketWriter} (h : ∀ w ∈ ws, w.Sound)
    (comm : MysqlCommunicator) :
    ((∀ w ∈ ws, w.encode 0 ≠ none) → ∃ comm' packets, comm.sendEach ws = some comm' ∧
      comm'.sent = comm.sent ++ packets ∧ Framed comm.sequenceId (packets.map Packet.bytes) ∧
        List.Forall₂ Packet.IsOf ws packets) ∧
      (comm.sendEach ws ≠ none → ∀ w ∈ ws, w.encode 0 ≠ none) := by
  induction ws generalizing comm with
  | nil =>
    exact ⟨fun _ => ⟨comm, [], rfl, (List.append_nil _).symm, trivial, .nil⟩,
      fun _ => List.forall_mem_nil _⟩
  | cons w ws ih =>
    obtain ⟨hw, h⟩ := List.forall_mem_cons.mp h
    have hnext := hw comm.sequenceId
    constructor
    · intro hfits
      obtain ⟨hfit, hfits⟩ := List.forall_mem_cons.mp hfits
      obtain ⟨bytes, hbytes, hframe⟩ := hnext.1 hfit
      obtain ⟨comm', packets, hsend, hsent, hframed, hof⟩ :=
        (ih h (comm.advance ⟨w.kind, bytes⟩)).1 hfits
      refine ⟨comm', ⟨w.kind, bytes⟩ :: packets, ?_, ?_, ⟨hframe, hframed⟩,
        .cons ⟨rfl, _, hbytes⟩ hof⟩
      · rw [sendEach, sendNext, hbytes]
        exact hsend
      · rw [hsent]
        exact List.append_assoc _ _ _
    · intro hne
      rw [sendEach, sendNext] at hne
      by_cases hfit : w.encode 0 ≠ none
      · obtain ⟨bytes, hbytes, -⟩ := hnext.1 hfit
        rw [hbytes] at hne
        exact List.forall_mem_cons.mpr ⟨hfit, (ih h _).2 hne⟩
      · rw [hnext.2 hfit] at hne
        exact absurd rfl hne

/-! ## The packets of a result set -/

/-- The packets for the columns. -/
def columnWriters (capabilities : BitVec 32) (schema : List TupleCellSpec) : List PacketWriter :=
  if schema.isEmpty then []
  else ⟨.columnCount, fun id => columnCountBytes capabilities id schema.length⟩ ::
    (schema.map (fun spec => ⟨.columnDefinition, fun id => columnDefinitionBytes id spec⟩) ++
      if hasFlag capabilities clientDeprecateEof then []
      else [⟨.eof, fun id =>
        EofPacket.encode capabilities { sequenceId := id, statusFlags := 0x02 }⟩])

/-- The packet for a row. -/
def rowWriter (row : List (Option CString)) : PacketWriter :=
  ⟨.row (rowStrings row), fun id => rowBytes id row⟩

/-- The packets for the rows. -/
def rowWriters (capabilities : BitVec 32) (rows : List (List (Option CString)))
    (noColumnDef : Bool) : List PacketWriter :=
  (rows.filter fun row => !row.isEmpty).map rowWriter ++
  [if hasFlag capabilities clientDeprecateEof || noColumnDef then
    ⟨.ok, fun id => OkPacket.encode capabilities { sequenceId := id, affectedRows := rows.length }⟩
  else ⟨.eof, fun id => EofPacket.encode capabilities { sequenceId := id }⟩]

namespace MysqlCommunicator

variable {comm : MysqlCommunicator}

theorem sendColumnDefinition_eq (schema : List TupleCellSpec) :
    comm.sendColumnDefinition schema = comm.sendEach (columnWriters comm.capabilities schema) := by
  unfold sendColumnDefinition columnWriters
  split_ifs with hempty hflag
  · rfl
  · rw [sendEach, List.append_nil]
    simp
  · rw [sendEach]
    simp only [sendEach_append, sendEach_singleton]
    rfl

theorem sendResultRows_eq (rows : List (List (Option CString))) (noColumnDef : Bool) :
    comm.sendResultRows rows noColumnDef =
      comm.sendEach (rowWriters comm.capabilities rows noColumnDef) := by
  unfold sendResultRows rowWriters rowWriter
  rw [sendEach_append]
  simp only [sendEach_singleton]
  split_ifs <;> rfl

end MysqlCommunicator

/-! ## Which packets fit -/

/-- The encoders write packets if and only if a condition holds. -/
structure Sends (ws : List PacketWriter) (fits : Prop) : Prop where
  sound : ∀ w ∈ ws, w.Sound
  fits_iff : (∀ w ∈ ws, w.encode 0 ≠ none) ↔ fits

namespace Sends

variable {ws ws' : List PacketWriter} {p q : Prop}

theorem nil : Sends [] True :=
  ⟨List.forall_mem_nil _, iff_true_intro (List.forall_mem_nil _)⟩

theorem singleton {w : PacketWriter} (h : Writes w.encode p) : Sends [w] p :=
  ⟨List.forall_mem_singleton.mpr h.sound, List.forall_mem_singleton.trans h.fits_iff⟩

theorem append (h : Sends ws p) (h' : Sends ws' q) : Sends (ws ++ ws') (p ∧ q) :=
  ⟨List.forall_mem_append.mpr ⟨h.sound, h'.sound⟩,
    List.forall_mem_append.trans (and_congr h.fits_iff h'.fits_iff)⟩

theorem map {α : Type} {f : α → PacketWriter} {l : List α} {r : α → Prop}
    (h : ∀ a, Writes (f a).encode (r a)) : Sends (l.map f) (∀ a ∈ l, r a) := by
  refine ⟨List.forall_mem_map.mpr fun a _ => (h a).sound, List.forall_mem_map.trans ?_⟩
  exact forall₂_congr fun a _ => (h a).fits_iff

theorem congr (h : Sends ws p) (hpq : p ↔ q) : Sends ws q := ⟨h.sound, h.fits_iff.trans hpq⟩

end Sends

/-- The columns are sent if their names are short. -/
theorem sends_columnWriters (capabilities : BitVec 32) (schema : List TupleCellSpec) :
    Sends (columnWriters capabilities schema) (∀ spec ∈ schema, ColumnFits spec) := by
  have hcount := Sends.singleton (w := ⟨.columnCount, _⟩)
    (writes_columnCount capabilities schema.length)
  have hcolumns := Sends.map (l := schema) (f := fun spec => ⟨.columnDefinition, _⟩)
    writes_columnDefinition
  unfold columnWriters
  split_ifs with hempty hflag
  · rw [List.isEmpty_iff.mp hempty]
    exact Sends.nil.congr (by simp)
  · exact (hcount.append (hcolumns.append .nil)).congr (by simp)
  · have heof := Sends.singleton (w := ⟨.eof, _⟩) (writes_eofPacket capabilities 0x02)
    exact (hcount.append (hcolumns.append heof)).congr (by simp)

/-- The rows are sent if their texts are short. -/
theorem sends_rowWriters (capabilities : BitVec 32) (rows : List (List (Option CString)))
    (noColumnDef : Bool) :
    Sends (rowWriters capabilities rows noColumnDef) (∀ row ∈ rows, row ≠ [] → RowFits row) := by
  have hrows := Sends.map (l := rows.filter fun row => !row.isEmpty) (f := rowWriter) writes_row
  unfold rowWriters
  split_ifs with hlast
  · have hok := Sends.singleton (w := ⟨.ok, _⟩) (writes_okPacket_rows capabilities rows.length)
    exact (hrows.append hok).congr (by simp)
  · have heof := Sends.singleton (w := ⟨.eof, _⟩) (writes_eofPacket capabilities 0x22)
    exact (hrows.append heof).congr (by simp)

/-! ## What a client needs -/

/-- A row packet carries exactly `n` strings. -/
def Packet.Carries (n : ℕ) (p : Packet) : Prop :=
  ∀ strings, p.kind = .row strings → strings.length = n ∧
    ∃ stored, storeLenencStrings strings = some stored ∧ p.bytes.drop 4 = stored.bytes

/-- The number of column definitions. -/
def columnDefinitions (packets : List Packet) : ℕ :=
  packets.countP fun p => p.kind.isColumnDefinition

/-- Packets are written behind those that have been: their sequence ids are consecutive, and a row
carries as many strings as there are column definitions. -/
def WellSent (sent : List Packet) (id : Byte) (result : Option MysqlCommunicator) : Prop :=
  ∃ comm packets, result = some comm ∧ comm.sent = sent ++ packets ∧
    Framed id (packets.map Packet.bytes) ∧ ∀ p ∈ packets, p.Carries (columnDefinitions packets)

/-- What a client needs: the length of its packet is read as it is announced, and the answer begins
with the id after that of the packet. -/
def Answered (comm : MysqlCommunicator) (packet : QueryPacket) (event : SessionEvent) : Prop :=
  payloadLength (BitVec.ofNat 24 packet.payload.length) = packet.payload.length ∧
    WellSent comm.sent (packet.sequenceId + 1) (comm.serve packet event)

/-! ## When a client gets it -/

/-- The message, or the columns and the rows, of a result fit into their packets. A row has as many
cells that can be read as there are columns. -/
def SqlResult.Fits (capabilities : BitVec 32) (r : SqlResult) : Prop :=
  match r.openOperator with
  | .error r' =>
    if r'.returnCode.number = 0 then OkFits capabilities r'.stateMessage
    else ErrFits capabilities r'.stateMessage
  | .ok oper => (∀ spec ∈ r.tupleSchema, ColumnFits spec) ∧
      ∀ row ∈ oper.rows, row ≠ [] →
        RowFits row ∧ (rowStrings row).length = r.tupleSchema.length

/-- Without a result, the response is short and the sequence id of the query is the last one. -/
def SessionEvent.Fits (capabilities : BitVec 32) (id : Byte) (event : SessionEvent) : Prop :=
  match event.sqlResult with
  | none => id = 255 ∧ 0 ≤ wrap32 event.response.length ∧
      OkFits capabilities (event.response.take (wrap32 event.response.length).toNat)
  | some r => r.Fits capabilities

/-- The payload is short, and the result fits unless it is not sent. -/
def QueryPacket.Fits (packet : QueryPacket) (capabilities : BitVec 32) (event : SessionEvent) :
    Prop :=
  packet.payload.length < 2 ^ 23 ∧
    (versionCommentQuery <:+: packet.payload.tail ++ bytesOf ";" ∨
      isBlankText (packet.payload.tail ++ bytesOf ";") ∨
        event.Fits capabilities packet.sequenceId)

/-! ## Rows -/

/-- The pieces of a row are its strings. By induction on them. -/
theorem storeAll_map_storeLenencString (strings : List CString) :
    storeAll (strings.map storeLenencString) = storeLenencStrings strings := by
  induction strings with
  | nil => rfl
  | cons s strings ih => rw [List.map_cons, storeAll, ih, storeLenencStrings]

/-- The encoder is that of a row, or not that of a row packet. -/
def PacketWriter.OfRow (w : PacketWriter) : Prop :=
  ∀ strings, w.kind = .row strings → ∃ row, w = rowWriter row

/-- The strings that an encoder is given for a row. -/
def PacketWriter.Carries (n : ℕ) (w : PacketWriter) : Prop :=
  ∀ strings, w.kind = .row strings → strings.length = n

/-- A row packet carries the strings of its row. -/
theorem carries_iff_of_isOf {w : PacketWriter} {p : Packet} (hrow : w.OfRow) (h : p.IsOf w)
    (n : ℕ) : p.Carries n ↔ w.Carries n := by
  obtain ⟨hkind, id, hbytes⟩ := h
  constructor
  · intro hcarries strings hstrings
    exact (hcarries strings (hkind.trans hstrings)).1
  · intro hcarries strings hstrings
    obtain ⟨row, rfl⟩ := hrow strings (hkind.symm.trans hstrings)
    obtain rfl := PacketKind.row.inj (hkind.symm.trans hstrings)
    refine ⟨hcarries _ rfl, ?_⟩
    obtain ⟨stored, hstored, hif⟩ := Option.bind_eq_some_iff.mp hbytes
    rw [storeAll_map_storeLenencString] at hstored
    refine ⟨stored, hstored, ?_⟩
    split_ifs at hif
    rw [← Option.some.inj hif]
    rfl

/-- The packets of encoders. By induction on them. -/
theorem carries_iff {ws : List PacketWriter} {packets : List Packet}
    (hof : List.Forall₂ Packet.IsOf ws packets) (hrow : ∀ w ∈ ws, w.OfRow) (n : ℕ) :
    (∀ p ∈ packets, p.Carries n) ↔ ∀ w ∈ ws, w.Carries n := by
  induction hof with
  | nil => exact iff_of_true (List.forall_mem_nil _) (List.forall_mem_nil _)
  | cons h _ ih =>
    obtain ⟨hw, hrow⟩ := List.forall_mem_cons.mp hrow
    rw [List.forall_mem_cons, List.forall_mem_cons, carries_iff_of_isOf hw h, ih hrow]

/-- The number of column definitions. By induction on the encoders. -/
theorem columnDefinitions_eq {ws : List PacketWriter} {packets : List Packet}
    (hof : List.Forall₂ Packet.IsOf ws packets) :
    columnDefinitions packets = ws.countP fun w => w.kind.isColumnDefinition := by
  unfold columnDefinitions
  induction hof with
  | nil => rfl
  | cons h _ ih => rw [List.countP_cons, List.countP_cons, ih, h.1]

/-- **What a list of encoders sends** is well sent if and only if all packets fit and the rows have
as many strings as there are column definitions. -/
theorem wellSent_sendEach_iff {ws : List PacketWriter} {fits : Prop} (hs : Sends ws fits)
    (hrow : ∀ w ∈ ws, w.OfRow) (comm : MysqlCommunicator) :
    WellSent comm.sent comm.sequenceId (comm.sendEach ws) ↔
      fits ∧ ∀ w ∈ ws, w.Carries (ws.countP fun w => w.kind.isColumnDefinition) := by
  have hspec := MysqlCommunicator.sendEach_spec hs.sound comm
  constructor
  · rintro ⟨comm', packets, hsend, hsent, -, hcarries⟩
    have hfits := hspec.2 (by rw [hsend]; exact Option.some_ne_none _)
    obtain ⟨comm'', packets', hsend', hsent', -, hof⟩ := hspec.1 hfits
    obtain rfl := Option.some.inj (hsend.symm.trans hsend')
    obtain rfl := List.append_cancel_left (hsent.symm.trans hsent')
    rw [columnDefinitions_eq hof, carries_iff hof hrow] at hcarries
    exact ⟨hs.fits_iff.mp hfits, hcarries⟩
  · rintro ⟨hfits, hcarries⟩
    obtain ⟨comm', packets, hsend, hsent, hframed, hof⟩ := hspec.1 (hs.fits_iff.mpr hfits)
    refine ⟨comm', packets, hsend, hsent, hframed, ?_⟩
    rw [columnDefinitions_eq hof, carries_iff hof hrow]
    exact hcarries

/-! ## Result sets -/

section resultSet

variable {capabilities : BitVec 32} {schema : List TupleCellSpec}
  {rows : List (List (Option CString))} {noColumnDef : Bool} {w : PacketWriter}

theorem mem_rowWriters_cases (h : w ∈ rowWriters capabilities rows noColumnDef) :
    (∃ row ∈ rows, row ≠ [] ∧ rowWriter row = w) ∨ w.kind = .ok ∨ w.kind = .eof := by
  rw [rowWriters, List.mem_append, List.mem_map, List.mem_singleton] at h
  obtain ⟨row, hrow, rfl⟩ | rfl := h
  · obtain ⟨hmem, hne⟩ := List.mem_filter.mp hrow
    exact .inl ⟨row, hmem, by simpa using hne, rfl⟩
  · split_ifs
    · exact .inr (.inl rfl)
    · exact .inr (.inr rfl)

theorem rowWriter_mem {row : List (Option CString)} (h : row ∈ rows) (hne : row ≠ []) :
    rowWriter row ∈ rowWriters capabilities rows noColumnDef :=
  List.mem_append_left _ (List.mem_map_of_mem (List.mem_filter.mpr ⟨h, by simpa using hne⟩))

/-- No row is sent among the columns. -/
theorem kind_columnWriters (h : w ∈ columnWriters capabilities schema) (strings : List CString) :
    w.kind ≠ .row strings := by
  unfold columnWriters at h
  split_ifs at h
  · exact absurd h List.not_mem_nil
  all_goals
    simp only [List.mem_cons, List.mem_append, List.mem_map, List.not_mem_nil, or_false] at h
  · obtain rfl | ⟨spec, -, rfl⟩ := h <;> exact fun h => nomatch h
  · obtain rfl | ⟨spec, -, rfl⟩ | rfl := h <;> exact fun h => nomatch h

/-- The number of column definitions of a result set. -/
theorem countP_writers (capabilities : BitVec 32) (schema : List TupleCellSpec)
    (rows : List (List (Option CString))) (noColumnDef : Bool) :
    (columnWriters capabilities schema ++ rowWriters capabilities rows noColumnDef).countP
      (fun w => w.kind.isColumnDefinition) = schema.length := by
  have hrows : (rowWriters capabilities rows noColumnDef).countP
      (fun w => w.kind.isColumnDefinition) = 0 := by
    rw [List.countP_eq_zero]
    intro w hw
    obtain ⟨row, -, -, rfl⟩ | hkind | hkind := mem_rowWriters_cases hw
    · exact Bool.false_ne_true
    · rw [hkind]
      exact Bool.false_ne_true
    · rw [hkind]
      exact Bool.false_ne_true
  have hcolumns : (columnWriters capabilities schema).countP
      (fun w => w.kind.isColumnDefinition) = schema.length := by
    unfold columnWriters
    split_ifs with hempty
    · rw [List.isEmpty_iff.mp hempty]
      rfl
    · simp [PacketKind.isColumnDefinition, Function.comp_def]
    · simp [PacketKind.isColumnDefinition, Function.comp_def]
  rw [List.countP_append, hcolumns, hrows]
  rfl

/-- The encoders of a result set that are given strings are those of its rows. -/
theorem ofRow_writers
    (h : w ∈ columnWriters capabilities schema ++ rowWriters capabilities rows noColumnDef) :
    w.OfRow := by
  intro strings hkind
  obtain hw | hw := List.mem_append.mp h
  · exact absurd hkind (kind_columnWriters hw strings)
  · obtain ⟨row, -, -, rfl⟩ | hother | hother := mem_rowWriters_cases hw
    · exact ⟨row, rfl⟩
    · exact nomatch hkind.symm.trans hother
    · exact nomatch hkind.symm.trans hother

theorem carries_writers_iff (n : ℕ) :
    (∀ w ∈ columnWriters capabilities schema ++ rowWriters capabilities rows noColumnDef,
      w.Carries n) ↔ ∀ row ∈ rows, row ≠ [] → (rowStrings row).length = n := by
  constructor
  · intro h row hrow hne
    exact h _ (List.mem_append_right _ (rowWriter_mem hrow hne)) _ rfl
  · intro h w hw strings hkind
    obtain hw | hw := List.mem_append.mp hw
    · exact absurd hkind (kind_columnWriters hw strings)
    · obtain ⟨row, hrow, hne, rfl⟩ | hother | hother := mem_rowWriters_cases hw
      · obtain rfl := PacketKind.row.inj hkind
        exact h row hrow hne
      · exact nomatch hkind.symm.trans hother
      · exact nomatch hkind.symm.trans hother

end resultSet

/-! ## The theorem -/

/-- A single packet that is not that of a row. -/
theorem wellSent_sendNext_iff {w : PacketWriter} {fits : Prop} (h : Writes w.encode fits)
    (hkind : ∀ strings, w.kind ≠ .row strings) (comm : MysqlCommunicator) :
    WellSent comm.sent comm.sequenceId (comm.sendNext w) ↔ fits := by
  have hiff := wellSent_sendEach_iff (Sends.singleton h)
    (List.forall_mem_singleton.mpr fun strings hrow => absurd hrow (hkind strings)) comm
  rw [MysqlCommunicator.sendEach_singleton] at hiff
  rw [hiff, and_iff_left]
  exact List.forall_mem_singleton.mpr fun strings hrow => absurd hrow (hkind strings)

/-- The message of a state is short. -/
theorem length_stateMessage (r : SqlResult) : r.stateMessage.length < 2 ^ 31 := by
  unfold SqlResult.stateMessage snprintf
  split_ifs <;> rw [List.length_take] <;> omega

/-- **A result** is well sent if and only if it fits. -/
theorem wellSent_writeResult_some_iff (comm : MysqlCommunicator) (r : SqlResult)
    (response : List Byte) :
    WellSent comm.sent comm.sequenceId
      (comm.writeResult { sqlResult := some r, response := response }) ↔
        r.Fits comm.capabilities := by
  unfold MysqlCommunicator.writeResult SqlResult.Fits
  dsimp only
  cases r.openOperator with
  | error r' =>
    dsimp only
    unfold MysqlCommunicator.writeState
    split_ifs
    · exact wellSent_sendNext_iff (w := ⟨.ok, _⟩)
        (writes_okPacket_info comm.capabilities (length_stateMessage r'))
        (fun _ h => nomatch h) comm
    · exact wellSent_sendNext_iff (w := ⟨.err, _⟩)
        (writes_errPacket comm.capabilities _ (length_stateMessage r'))
        (fun _ h => nomatch h) comm
  | ok oper =>
    dsimp only
    have hsend : (do
        let comm₁ ← comm.sendColumnDefinition r.tupleSchema
        comm₁.sendResultRows oper.rows r.tupleSchema.isEmpty) =
          comm.sendEach (columnWriters comm.capabilities r.tupleSchema ++
            rowWriters comm.capabilities oper.rows r.tupleSchema.isEmpty) := by
      rw [MysqlCommunicator.sendEach_append, MysqlCommunicator.sendColumnDefinition_eq]
      refine Option.bind_congr fun comm₁ h => ?_
      rw [MysqlCommunicator.sendResultRows_eq, MysqlCommunicator.capabilities_sendEach h]
    rw [hsend, wellSent_sendEach_iff ((sends_columnWriters _ _).append (sends_rowWriters _ _ _))
      (fun w hw => ofRow_writers hw), countP_writers, carries_writers_iff]
    constructor
    · rintro ⟨⟨hcolumns, hrows⟩, hlen⟩
      exact ⟨hcolumns, fun row hrow hne => ⟨hrows row hrow hne, hlen row hrow hne⟩⟩
    · rintro ⟨hcolumns, hrows⟩
      exact ⟨⟨hcolumns, fun row hrow hne => (hrows row hrow hne).1⟩,
        fun row hrow hne => (hrows row hrow hne).2⟩

/-- **A response without a result** is well sent if and only if it fits and the expected id is the
default one. -/
theorem wellSent_writeResult_none_iff (comm : MysqlCommunicator) (response : List Byte) :
    WellSent comm.sent comm.sequenceId
      (comm.writeResult { sqlResult := none, response := response }) ↔
        comm.sequenceId = 0 ∧ 0 ≤ wrap32 response.length ∧
          OkFits comm.capabilities (response.take (wrap32 response.length).toNat) := by
  unfold MysqlCommunicator.writeResult storeFixLengthString
  dsimp only
  have hlt : wrap32 response.length < 2 ^ 31 := by
    unfold wrap32
    rw [Int.bmod_def]
    split <;> omega
  by_cases hneg : wrap32 response.length < 0
  · rw [if_pos hneg]
    refine iff_of_false ?_ fun h => absurd h.2.1 (by omega)
    rintro ⟨comm', packets, hsend, -⟩
    exact nomatch hsend
  rw [if_neg hneg, Option.bind_eq_bind, Option.bind_some]
  have hlen : (response.take (wrap32 response.length).toNat).length < 2 ^ 31 := by
    rw [List.length_take]
    omega
  obtain ⟨hfit, hnot⟩ := writes_okPacket_info comm.capabilities hlen 0
  unfold MysqlCommunicator.sendPacket
  dsimp only at hfit hnot ⊢
  constructor
  · rintro ⟨comm', packets, hsend, hsent, hframed, -⟩
    have hfits : OkFits comm.capabilities (response.take (wrap32 response.length).toNat) := by
      by_contra hno
      rw [hnot hno] at hsend
      exact nomatch hsend
    obtain ⟨bytes, hbytes, hframe⟩ := hfit hfits
    rw [hbytes] at hsend
    obtain rfl := Option.some.inj hsend
    obtain rfl := List.append_cancel_left hsent
    exact ⟨hframed.1.id_unique hframe, by omega, hfits⟩
  · rintro ⟨hid, -, hfits⟩
    obtain ⟨bytes, hbytes, hframe⟩ := hfit hfits
    rw [hbytes]
    refine ⟨_, [⟨.ok, bytes⟩], rfl, rfl, ?_, ?_⟩
    · rw [hid]
      exact ⟨hframe, trivial⟩
    · exact List.forall_mem_singleton.mpr fun _ h => nomatch h

/-- The id behind the last one. -/
theorem succ_eq_zero_iff (id : Byte) : id + 1 = 0 ↔ id = 255 := by
  rw [Fin.ext_iff, Fin.ext_iff, Fin.val_add]
  have hlt := id.isLt
  change (id.val + 1) % 256 = 0 ↔ id.val = 255
  omega

/-- The answer to a client that connects. -/
theorem versionCommentResult_fits (capabilities : BitVec 32) :
    versionCommentResult.Fits capabilities := by
  refine ⟨?_, ?_⟩
  · exact List.forall_mem_singleton.mpr (by decide)
  · exact List.forall_mem_singleton.mpr fun _ => by decide

/-- A payload is read if it is short. -/
theorem payloadLength_eq_iff (n : BitVec 24) : payloadLength n = n.toNat ↔ n.toNat < 2 ^ 23 := by
  unfold payloadLength
  rw [BitVec.toInt_eq_toNat_cond]
  split_ifs <;> omega

/-- What is sent for a packet that is read. -/
theorem serve_eq {comm : MysqlCommunicator} {packet : QueryPacket} {event : SessionEvent}
    (h : packet.payload.length < 2 ^ 23) :
    comm.serve packet event =
      let comm₁ := { comm with sequenceId := packet.sequenceId + 1 }
      if versionCommentQuery <:+: packet.payload.tail ++ bytesOf ";" then
        comm₁.writeResult { sqlResult := some versionCommentResult }
      else if isBlankText (packet.payload.tail ++ bytesOf ";") then some comm₁
      else comm₁.writeResult event := by
  have hread := (payloadLength_eq_iff (BitVec.ofNat 24 packet.payload.length)).mpr (by
    rw [BitVec.toNat_ofNat]
    omega)
  unfold MysqlCommunicator.serve MysqlCommunicator.readEvent
  rw [if_neg (by omega)]
  rfl

/-- **The framing of answers.** Exactly the lengths below 2^23 are read as they are announced; and a
client gets what it needs, whatever the connection, the query and its result are, if and only if the
payload is that short and the result fits. -/
theorem answered_iff (n : BitVec 24) (comm : MysqlCommunicator) (packet : QueryPacket)
    (event : SessionEvent) :
    (payloadLength n = n.toNat ↔ n.toNat < 2 ^ 23) ∧
      (Answered comm packet event ↔ packet.Fits comm.capabilities event) := by
  refine ⟨payloadLength_eq_iff n, ?_⟩
  have hlen : (BitVec.ofNat 24 packet.payload.length).toNat = packet.payload.length := by
    rw [BitVec.toNat_ofNat]
    exact Nat.mod_eq_of_lt packet.length_lt
  have hread := payloadLength_eq_iff (BitVec.ofNat 24 packet.payload.length)
  rw [hlen] at hread
  unfold Answered QueryPacket.Fits
  rw [hread]
  refine and_congr_right fun hlt => ?_
  have hversion := wellSent_writeResult_some_iff
    { comm with sequenceId := packet.sequenceId + 1 } versionCommentResult []
  have hnone := wellSent_writeResult_none_iff
    { comm with sequenceId := packet.sequenceId + 1 } event.response
  rw [serve_eq hlt]
  dsimp only at hversion hnone ⊢
  split_ifs with hquery hblank
  · exact iff_of_true (hversion.mpr (versionCommentResult_fits _)) (.inl hquery)
  · refine iff_of_true ⟨_, [], rfl, (List.append_nil _).symm, trivial, List.forall_mem_nil _⟩
      (.inr (.inl hblank))
  · rw [or_iff_right hquery, or_iff_right hblank]
    obtain ⟨sqlResult, response⟩ := event
    cases sqlResult with
    | none =>
      rw [hnone, succ_eq_zero_iff]
      rfl
    | some r =>
      exact wellSent_writeResult_some_iff
        { comm with sequenceId := packet.sequenceId + 1 } r response

/-- `drop table t`, with the sequence id 0: the answer is the text of the storage stage. -/
def dropTablePacket : QueryPacket where
  sequenceId := 0
  payload := 3 :: bytesOf "drop table t"
  length_lt := by decide
  command := rfl

/-- The text of the storage stage is sent with the sequence id 0 again. -/
theorem dropTable_not_answered :
    ¬ Answered { capabilities := clientProtocol41 } dropTablePacket
      { response := bytesOf "Unsupported sql: 6\n" } := by
  rintro ⟨-, hsent⟩
  rw [serve_eq (by decide)] at hsent
  dsimp only at hsent
  have hquery : ¬ versionCommentQuery <:+: dropTablePacket.payload.tail ++ bytesOf ";" :=
    fun h => absurd h.length_le (by decide)
  rw [if_neg hquery, if_neg (by decide)] at hsent
  have hid := (wellSent_writeResult_none_iff
    { capabilities := clientProtocol41, sequenceId := dropTablePacket.sequenceId + 1 } _).mp hsent
  exact absurd hid.1 (by decide)

end Miniob.Net
