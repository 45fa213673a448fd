import PersonalCloud.Client.Remote

/-! A client that sends its commands and bodies one behind the other, and a session that reads
them: when both agree on where each command starts. -/
namespace PersonalCloud

open Proto Channel Session

namespace Remote

inductive Call where
  | stat (name : Bytes)
  | putFile (name content tag : Bytes)
  | getFile (name : Bytes)
  | delFile (name : Bytes)
  | putChunk (id content : Bytes)
  | getChunk (id : Bytes)
  | delChunk (id : Bytes)
  | list
  | quit

namespace Call

def line : Call → Bytes
  | stat name => statLine name
  | putFile name content tag => putFileLine name tag content.length
  | getFile name => getFileLine name
  | delFile name => delFileLine name
  | putChunk id content => putChunkLine id content.length
  | getChunk id => getChunkLine id
  | delChunk id => delChunkLine id
  | list => kList
  | quit => kQuit

/-- What follows the line without waiting for a reply. -/
def body : Call → Bytes
  | putFile _ content _ => content
  | putChunk _ content => content
  | _ => []

def bytes (c : Call) : Bytes := sendLine c.line ++ c.body

/-- Names, chunk ids and tags as the callers pass them. -/
def WellFormed : Call → Prop
  | stat name => isSafeName name = true
  | putFile name _ tag => isSafeName name = true ∧ IsTag tag
  | getFile name => isSafeName name = true
  | delFile name => isSafeName name = true
  | putChunk id _ => isSafeChunkId id = true
  | getChunk id => isSafeChunkId id = true
  | delChunk id => isSafeChunkId id = true
  | list => True
  | quit => True

/-- The session passes all checks it makes before it receives a body. -/
def Receives (s : SessionState) : Call → Prop
  | putFile name content _ => PutFileAccepted s name content.length
  | putChunk _ content =>
      s.machineTrusted = true ∧ content.length ≤ Config.kMaxTransferSize.toNat
  | _ => True

/-- There is no body to receive, or it is received. -/
def Accepted (s : SessionState) (c : Call) : Prop := c.body = [] ∨ c.Receives s

/-- If the session goes on after the call, it has consumed exactly the body. -/
def InStep (s : SessionState) (env : SessionEnv) (rest : Bytes) (c : Call) : Prop :=
  (handle env s c.line (c.body ++ rest)).go = true →
    (handle env s c.line (c.body ++ rest)).rest = rest

end Call

end Remote

open Remote

variable {s : SessionState} {env : SessionEnv} {c : Call}

/-- A call that passes the checks consumes its body and changes nothing about the connection. -/
theorem handle_receives (hc : c.WellFormed) (h : c.Receives s) (input : Bytes) :
    (handle env s c.line input).session = s ∧
    (handle env s c.line input).rest = input.drop c.body.length := by
  cases c with
  | stat name =>
    simp only [Call.line, statLine, handle_stat]
    split_ifs
    · exact ⟨rfl, rfl⟩
    · unfold doStat
      split
      · split <;> exact ⟨rfl, rfl⟩
      · exact ⟨rfl, rfl⟩
  | putFile name content tag =>
    obtain ⟨hlogin, hsize, hpath⟩ := h
    obtain ⟨final, hfinal⟩ := Option.isSome_iff_exists.mp hpath
    rw [Call.line, handle_putFileLine hc.2 hlogin hsize hfinal]
    exact ⟨storeBody_session _ _ _, storeBody_rest _ _ _⟩
  | getFile name =>
    simp only [Call.line, getFileLine, handle_getFile]
    split_ifs
    · exact ⟨rfl, rfl⟩
    · unfold doGetFile
      split
      · split <;> exact ⟨rfl, rfl⟩
      · exact ⟨rfl, rfl⟩
  | delFile name =>
    simp only [Call.line, delFileLine, handle_delFile]
    split_ifs
    · exact ⟨rfl, rfl⟩
    · unfold doDelFile
      split <;> exact ⟨rfl, rfl⟩
  | putChunk id content =>
    have hfinal : Store.chunkPath id = some [Store.kChunksDir, id] := if_pos hc
    rw [Call.line, handle_putChunkLine h.1 h.2 hfinal]
    exact ⟨storeBody_session _ _ _, storeBody_rest _ _ _⟩
  | getChunk id =>
    simp only [Call.line, getChunkLine, handle_getChunk]
    split_ifs
    · exact ⟨rfl, rfl⟩
    · unfold doGetChunk
      split
      · split <;> exact ⟨rfl, rfl⟩
      · exact ⟨rfl, rfl⟩
  | delChunk id =>
    simp only [Call.line, delChunkLine, handle_delChunk]
    split_ifs
    · exact ⟨rfl, rfl⟩
    · unfold doDelChunk
      split
      · split <;> exact ⟨rfl, rfl⟩
      · exact ⟨rfl, rfl⟩
  | list =>
    simp only [Call.line, handle_list]
    split_ifs <;> exact ⟨rfl, rfl⟩
  | quit =>
    rw [Call.line, handle_quit]
    exact ⟨rfl, rfl⟩

theorem handle_rejected (hc : c.WellFormed) (h : ¬ c.Receives s) (input : Bytes) :
    ∃ reason, handle env s c.line input = fail s reason input := by
  cases c with
  | putFile name content tag => exact handle_putFileLine_rejected hc.2 h
  | putChunk id content => exact handle_putChunkLine_rejected hc h
  | stat | getFile | delFile | getChunk | delChunk | list | quit => exact absurd trivial h

theorem handle_session (hc : c.WellFormed) (input : Bytes) :
    (handle env s c.line input).session = s := by
  by_cases h : c.Receives s
  · exact (handle_receives hc h input).1
  · obtain ⟨reason, hfail⟩ : ∃ reason, handle env s c.line input = fail s reason input :=
      handle_rejected hc h input
    rw [hfail]
    rfl

/-- An accepted call leaves the input at the line behind its body. -/
theorem handle_rest (hc : c.WellFormed) (haccept : c.Accepted s) (rest : Bytes) :
    (handle env s c.line (c.body ++ rest)).rest = rest := by
  by_cases h : c.Receives s
  · rw [(handle_receives hc h _).2, List.drop_left]
  · obtain ⟨reason, hfail⟩ : ∃ reason, handle env s c.line (c.body ++ rest) =
        fail s reason (c.body ++ rest) := handle_rejected hc h _
    have hbody : c.body = [] := haccept.resolve_right h
    rw [hfail, hbody]
    rfl

/-- Exactly the accepted calls are always in step. -/
theorem inStep_iff_accepted (hc : c.WellFormed) :
    (∀ env rest, c.InStep s env rest) ↔ c.Accepted s := by
  constructor
  · intro h
    by_contra haccept
    obtain ⟨hbody, hreject⟩ := not_or.mp haccept
    obtain ⟨reason, hfail⟩ : ∃ reason, handle calmEnv s c.line (c.body ++ []) =
        fail s reason (c.body ++ []) := handle_rejected hc hreject _
    have hstep : (handle calmEnv s c.line (c.body ++ [])).rest = [] :=
      h calmEnv [] (by rw [hfail]; rfl)
    rw [hfail] at hstep
    have hrest : (fail s reason (c.body ++ [])).rest = c.body ++ [] := rfl
    rw [hrest, List.append_nil] at hstep
    exact hbody hstep
  · intro haccept env rest _
    exact handle_rest hc haccept rest

theorem isPlain_line (hc : c.WellFormed) : IsPlain c.line := by
  have htag {tag : Bytes} (h : IsTag tag) : IsPlain (wireTag tag) := by
    unfold wireTag
    split_ifs
    · decide
    · exact fun x hx => (h x hx).2
  cases c with
  | stat name => exact isPlain_sp (by decide) (isPlain_of_isSafeName hc)
  | putFile name content tag =>
    exact isPlain_sp (by decide) (isPlain_sp (isPlain_text _)
      (isPlain_sp (htag hc.2) (isPlain_of_isSafeName hc.1)))
  | getFile name => exact isPlain_sp (by decide) (isPlain_of_isSafeName hc)
  | delFile name => exact isPlain_sp (by decide) (isPlain_of_isSafeName hc)
  | putChunk id content =>
    exact isPlain_sp (by decide) (isPlain_sp (isPlain_of_isSafeChunkId hc) (isPlain_text _))
  | getChunk id => exact isPlain_sp (by decide) (isPlain_of_isSafeChunkId hc)
  | delChunk id => exact isPlain_sp (by decide) (isPlain_of_isSafeChunkId hc)
  | list => exact (by decide : IsPlain kList)
  | quit => exact (by decide : IsPlain kQuit)

/-- As long as the calls are accepted, the session handles their lines and nothing else. -/
theorem serveFrom_lines (envs : ℕ → SessionEnv) (fuel k : ℕ) {calls : List Call}
    (hcalls : ∀ c ∈ calls, c.WellFormed ∧ c.Accepted s) :
    (serveFrom envs fuel k s (calls.flatMap Call.bytes)).map Prod.fst <+: calls.map Call.line := by
  induction fuel generalizing k calls with
  | zero => exact List.nil_prefix
  | succ fuel ih =>
    cases calls with
    | nil => exact List.nil_prefix
    | cons c calls =>
      obtain ⟨hc, haccept⟩ := hcalls c (by simp)
      have hinput : (c :: calls).flatMap Call.bytes =
          sendLine c.line ++ (c.body ++ calls.flatMap Call.bytes) := by
        rw [List.flatMap_cons, Call.bytes, List.append_assoc]
      rw [hinput, serveFrom, readLine_sendLine (isPlain_line hc)]
      split_ifs with hlen
      · simp only [handle_session hc, handle_rest hc haccept, List.map_cons]
        rw [List.prefix_cons_inj]
        split_ifs
        · exact ih _ fun x hx => hcalls x (List.mem_cons_of_mem _ hx)
        · exact List.nil_prefix
      · exact List.nil_prefix

/-- In every login and token state: a call with any content is in step exactly if it is accepted,
and in a run of accepted calls every line the session handles is a command line of the client. -/
theorem command_lines_of_accepted (s : SessionState) :
    (∀ c : Call, c.WellFormed → ((∀ env rest, c.InStep s env rest) ↔ c.Accepted s)) ∧
    ∀ calls : List Call, (∀ c ∈ calls, c.WellFormed ∧ c.Accepted s) → ∀ envs,
      (serve envs s (calls.flatMap Call.bytes)).map Prod.fst <+: calls.map Call.line :=
  ⟨fun _ hc => inStep_iff_accepted hc, fun _ hcalls envs => serveFrom_lines envs _ 0 hcalls⟩

/-- Two accepted calls on a connection that has proved both an account and the machine token. -/
theorem command_lines_of_accepted_two :
    (serve (fun _ => calmEnv) ⟨ascii "ann", true, true⟩
      ([Call.putFile (ascii "a b") (ascii "QUIT\n") [], Call.list].flatMap Call.bytes)).map
        Prod.fst <+: [ascii "PUTFILE 5 - a b", ascii "LIST"] := by
  have hcalls : ∀ c ∈ [Call.putFile (ascii "a b") (ascii "QUIT\n") [], Call.list],
      c.WellFormed ∧ c.Accepted ⟨ascii "ann", true, true⟩ := by
    intro c hc
    rcases List.mem_pair.mp hc with rfl | rfl
    · exact ⟨⟨by decide, by simp [IsTag]⟩, .inr ⟨rfl, by decide, by decide⟩⟩
    · exact ⟨trivial, .inl rfl⟩
  exact (command_lines_of_accepted ⟨ascii "ann", true, true⟩).2 _ hcalls fun _ => calmEnv

/-- A file whose name is a single space: its `PUTFILE` line has three fields and is rejected, and
the first line of the file is then handled as a command on the account. -/
theorem body_handled_as_command :
    isSafeName (ascii " ") = true ∧
    (serve (fun _ => calmEnv) ⟨ascii "ann", true, false⟩
      ([Call.putFile (ascii " ") (ascii "DELFILE a\n") []].flatMap Call.bytes)).map Prod.fst =
        [ascii "PUTFILE 10 -  ", ascii "DELFILE a"] ∧
    [Call.putFile (ascii " ") (ascii "DELFILE a\n") []].map Call.line =
      [ascii "PUTFILE 10 -  "] := by
  decide +kernel

end PersonalCloud
