import Tessera.Net.HeadersSyncSafe

/-!
# An honest peer

A peer that serves the same chain twice, in full messages, gets it accepted: no call fails, and all
headers up to the point of sufficient work are released. The chain has to change its difficulty as
permitted and must not need more commitments than may be stored.
-/

namespace Tessera.Net

open Lib Validation HeadersSyncState Session List

variable {batches : List (List CBlockHeader)} {P : Primitives} {params : SyncParams}
  {s s' : HeadersSyncState} {chain ps rd rl : List CBlockHeader} {stored : List Bool}

/-! ### Chains that can be served -/

variable (P params) in
/-- A chain on top of the starting point that changes its difficulty as permitted, at heights that
are an `int` and with work that does not overflow. -/
structure ServedChain (chain : List CBlockHeader) : Prop where
  linked : Linked P (params.startHash P) chain
  permitted : ∀ ps header, ps ++ [header] <+: chain →
    permittedDifficultyTransition params.pow (params.chainStartHeight + 1 + ps.length)
      (ps.getLastD params.chainStart).nBits header.nBits = true
  start_nonneg : 0 ≤ params.chainStartHeight
  height : params.chainStartHeight + chain.length < 2 ^ 31
  work : params.chainStartWork + headersWork chain < 2 ^ 256

variable {header : CBlockHeader}

section

variable (h : ServedChain P params chain)

include h

theorem ServedChain.hashPrev
    (hpre : ps ++ [header] <+: chain) : header.hashPrevBlock = lastHash P (params.startHash P) ps :=
  (linked_append.mp (h.linked.of_prefix hpre)).2.1

private theorem ServedChain.work_lt (hpre : ps <+: chain) : params.chainStartWork +
    headersWork ps < 2 ^ 256 := by
  have := headersWork_le_of_prefix hpre
  have := h.work
  omega

private theorem ServedChain.height_lt (hpre : ps <+: chain) : params.chainStartHeight +
    ps.length < 2 ^ 31 := by
  have := hpre.length_le
  have := h.height
  omega

end

private theorem lastHash_eq_getLastD (ps : List CBlockHeader) :
    lastHash P (params.startHash P) ps = (ps.getLastD params.chainStart).getHash P := by
  rcases eq_nil_or_concat ps with rfl | ⟨ps, header, rfl⟩
  · rfl
  · rw [concat_eq_append]
    simp [lastHash]

variable {headers : List CBlockHeader}

private theorem prefix_of_append_cons (h : ps ++ header :: headers <+: chain) : ps ++
    [header] <+: chain := by
  have hfirst : ps ++ [header] <+: ps ++ header :: headers :=
    ⟨headers, (append_cons ps header headers).symm⟩
  exact hfirst.trans h

private theorem commitmentsFrom_mono {height : Int} {hs hs' : List CBlockHeader} (h : hs <+: hs') :
    commitmentsFrom P params height hs <+: commitmentsFrom P params height hs' := by
  obtain ⟨rest, rfl⟩ := h
  rw [commitmentsFrom_append]
  exact prefix_append _ _

/-! ### The first phase -/

/-- A header of the chain is taken in the first phase. -/
theorem Presynced.accepts (h : Presynced P params ps s) (hchain : ServedChain P params chain)
    (hpre : ps ++ [header] <+: chain)
    (hmax : (commitmentsFrom P params (params.chainStartHeight + 1) (ps ++ [header])).length ≤
      params.maxCommitments) : ∃ s', s.validateAndProcessSingleHeader P params header =
        (true, s') := by
  have hheight := hchain.height_lt hpre
  rw [length_append, length_singleton] at hheight
  have hstart := hchain.start_nonneg
  have hnext : toInt32 (s.currentHeight + 1) = params.chainStartHeight + 1 + ps.length := by
    rw [h.height, toInt32_eq (by omega) (by omega)]
    omega
  have hpermitted := hchain.permitted ps header hpre
  rw [← h.last, ← hnext] at hpermitted
  unfold validateAndProcessSingleHeader
  simp only [hpermitted, Bool.not_true, Bool.false_eq_true, if_false]
  split
  next hat =>
    rw [hnext] at hat
    rw [commitmentsFrom_append, commitmentsFrom_singleton, if_pos hat, ← h.commitments] at hmax
    exact ⟨_, if_neg (not_lt.mpr hmax)⟩
  · exact ⟨_, rfl⟩

theorem Presynced.accepts_all (h : Presynced P params ps s) (hchain : ServedChain P params chain)
    (hpre : ps ++ headers <+: chain)
    (hmax : (commitmentsFrom P params (params.chainStartHeight + 1) (ps ++ headers)).length ≤
      params.maxCommitments) : ∃ s', s.processHeaders P params headers = (true, s') := by
  induction headers generalizing ps s with
  | nil => exact ⟨s, rfl⟩
  | cons header headers ih =>
    have hsingle := prefix_of_append_cons hpre
    have hheight := hchain.height_lt hsingle
    rw [length_append, length_singleton] at hheight
    rw [append_cons] at hpre hmax
    obtain ⟨s₁, hstep⟩ := h.accepts hchain hsingle
      ((commitmentsFrom_mono (prefix_append _ _)).length_le.trans hmax)
    have hnext := h.header hchain.start_nonneg (by omega) hstep
    rw [processHeaders, hstep]
    exact ih hnext hpre hmax

/-! ### The second phase -/

theorem Buffered.previousBits (h : Buffered P params stored rd rl s)
    (hne : rd ≠ [] → s.redownloadedHeaders ≠ []) :
    s.previousBits params = (rd.getLastD params.chainStart).nBits := by
  obtain ⟨buf, rfl, hbuf⟩ := h.buffer
  rw [previousBits, hbuf]
  rcases eq_nil_or_concat buf with rfl | ⟨buf, header, rfl⟩
  · -- with an empty buffer nothing can have been downloaded
    have hrl : rl = [] := by
      by_contra hrl
      exact hne (by simpa using hrl) hbuf
    rw [hrl]
    rfl
  · rw [concat_eq_append]
    simp [CompressedHeader.ofHeader]

private theorem redownloadedHeaders_ne_nil
    (hstep : s.validateAndStoreRedownloadedHeader P params header = (true, s')) :
    s'.redownloadedHeaders ≠ [] := by
  rcases validateAndStoreRedownloadedHeader_cases P params header s with ⟨_, hrun, -⟩ |
    ⟨-, rest, -, hrun⟩
  · cases hrun.symm.trans hstep
  · cases hrun.symm.trans hstep
    simp [storeHeader]

section Accepts

variable (hchain : ServedChain P params chain) (hps : ps <+: chain)
  (henough : params.minimumRequiredWork ≤ params.chainStartWork + headersWork ps)
  (hstored : stored = commitmentsFrom P params (params.chainStartHeight + 1) ps)

include hchain hps henough hstored

/-- A header of the chain is taken in the second phase: until the work is reached, its commitment is
the one that the first phase has stored for it. -/
theorem Buffered.accepts (h : Buffered P params stored rd rl s) (hpre : rd ++ [header] <+: chain)
    (hne : rd ≠ [] → s.redownloadedHeaders ≠ []) :
    ∃ s', s.validateAndStoreRedownloadedHeader P params header = (true, s') := by
  have hprev : (header.hashPrevBlock != s.redownloadBufferLastHash) = false := by
    rw [h.last, hchain.hashPrev hpre]
    simp
  have hnext : s.redownloadBufferLastHeight + 1 = params.chainStartHeight + 1 + rd.length := by
    rw [h.height]
    omega
  have hpermitted := hchain.permitted rd header hpre
  rw [← h.previousBits hne, ← hnext] at hpermitted
  unfold validateAndStoreRedownloadedHeader
  simp only [hprev, hpermitted, Bool.not_true, Bool.false_eq_true, if_false]
  split
  next hcheck =>
    rw [Bool.and_eq_true, Bool.not_eq_true'] at hcheck
    -- the header is among those of the first phase, since the work is not reached with it
    have hearlier : rd ++ [header] <+: ps := by
      rcases prefix_or_prefix_of_prefix hpre hps with hearlier | hlater
      · exact hearlier
      · have hle := headersWork_le_of_prefix hlater
        have hall := h.trackWork_reached (hchain.work_lt hpre) (by omega)
        exact absurd (hcheck.1.symm.trans hall) Bool.false_ne_true
    obtain ⟨rest, rfl⟩ := hearlier
    have hmatched := h.trackWork_matched hcheck.1
    rw [hstored, commitmentsFrom_append, commitmentsFrom_append, commitmentsFrom_singleton, ← hnext,
      if_pos hcheck.2, append_assoc] at hmatched
    have hcommitments := append_cancel_left hmatched
    have hcheckCommitment : (s.trackWork params header).checkCommitment P params header =
        (true, { s.trackWork params header with
          headerCommitments := commitmentsFrom P params (params.chainStartHeight + 1 +
            (rd ++ [header]).length) rest }) := by
      have : (s.trackWork params header).headerCommitments = _ := hcommitments
      rw [checkCommitment, this]
      simp
    rw [hcheckCommitment]
    exact ⟨_, rfl⟩
  · exact ⟨_, rfl⟩

theorem Buffered.accepts_all (h : Buffered P params stored rd rl s) (hpre : rd ++ headers <+: chain)
    (hne : rd ≠ [] → s.redownloadedHeaders ≠ []) : ∃ s',
    s.redownloadHeaders P params headers = (true, s') ∧
      (rd ++ headers ≠ [] → s'.redownloadedHeaders ≠ []) := by
  induction headers generalizing rd s with
  | nil => exact ⟨s, rfl, by rwa [append_nil]⟩
  | cons header headers ih =>
    obtain ⟨s₁, hstep⟩ := h.accepts hchain hps henough hstored (prefix_of_append_cons hpre) hne
    rw [append_cons] at hpre ⊢
    rw [redownloadHeaders, hstep]
    exact ih (h.header hstep) hpre fun _ => redownloadedHeaders_ne_nil hstep

end Accepts

/-- A full message in the second phase, of which some headers stay in the buffer. -/
theorem processNextHeaders_redownload {ready : List CBlockHeader} {s'' : HeadersSyncState}
    (hheaders : headers ≠ []) (hstate : s.downloadState = .redownload)
    (hloop : s.redownloadHeaders P params headers = (true, s'))
    (hpop : s'.popHeadersReadyForAcceptance P params = (ready, s'')) : s.processNextHeaders P params
      headers true = if s''.redownloadedHeaders = [] ∧ s''.processAllRemainingHeaders = true then
        (⟨ready, true, false⟩, s''.finalize)
      else (⟨ready, true, true⟩, s'') := by
  obtain ⟨header, rest, rfl⟩ := exists_cons_of_ne_nil hheaders
  simp only [processNextHeaders, hstate, processRedownload, hloop, hpop, finish]
  by_cases hlast : s''.redownloadedHeaders = [] ∧ s''.processAllRemainingHeaders
  · simp [hlast]
  · rw [if_neg hlast]
    rw [← List.isEmpty_iff, ← Bool.and_eq_true] at hlast
    simp [hlast]

/-! ### Sessions with an honest peer -/

def fullMessages (batches : List (List CBlockHeader)) : List (List CBlockHeader × Bool) :=
  batches.map fun headers => (headers, true)

variable (params chain) in
/-- The messages of a phase: parts of the chain, one after the other, until there is enough work. -/
structure Phase (batches : List (List CBlockHeader)) : Prop where
  ne_nil : batches ≠ []
  nonempty : ∀ headers ∈ batches, headers ≠ []
  ofChain : batches.flatten <+: chain
  enough : params.minimumRequiredWork ≤ params.chainStartWork + headersWork batches.flatten
  first : ∀ before after, batches = before ++ after → before ≠ [] → after ≠ [] →
    params.chainStartWork + headersWork before.flatten < params.minimumRequiredWork

def Session.AllSucceeded (session : Session) : Prop := ∀ e ∈ session.log, e.result.success = true

variable (P params) in
theorem Session.AllSucceeded.step {session : Session} (h : session.AllSucceeded)
    (headers : List CBlockHeader)
    (hsuccess : (session.sync.processNextHeaders P params headers true).1.success) :
    (session.step P params (headers, true)).AllSucceeded := by
  intro e he
  rcases mem_append.mp he with he | he
  · exact h e he
  · rw [mem_singleton.mp he]
    exact hsuccess

variable (P params) in
/-- A session in the first phase after some messages of it. -/
structure InPresync (before : List (List CBlockHeader)) (session : Session) : Prop where
  inv : SessionInv P params session
  state : session.sync.downloadState = .presync
  taken : presynced session.log = before.flatten
  succeeded : session.AllSucceeded

variable (P params) in
/-- A session in the second phase after some messages of it. -/
structure InRedownload (presync before : List (List CBlockHeader)) (session : Session) : Prop where
  inv : SessionInv P params session
  state : session.sync.downloadState = .redownload
  presynced : presynced session.log = presync.flatten
  taken : redownloaded session.log = before.flatten
  buffer : before.flatten ≠ [] → session.sync.redownloadedHeaders ≠ []
  succeeded : session.AllSucceeded

variable {session : Session} {before after presync redownload : List (List CBlockHeader)}
  {headers : List CBlockHeader}

variable (P params before headers session) in
/-- One more message of a phase: it goes on until there is enough work. -/
def Advances (Going Over : List (List CBlockHeader) → Session → Prop) : Prop :=
  (params.chainStartWork + headersWork (before ++ [headers]).flatten < params.minimumRequiredWork →
      Going (before ++ [headers]) (session.step P params (headers, true))) ∧
    (params.minimumRequiredWork ≤ params.chainStartWork +
      headersWork (before ++ [headers]).flatten →
      Over (before ++ [headers]) (session.step P params (headers, true)))

theorem InPresync.message (h : InPresync P params before session)
    (hchain : ServedChain P params chain) (hpre : (before ++ [headers]).flatten <+: chain)
    (hne : headers ≠ [])
    (hmax : (commitmentsFrom P params (params.chainStartHeight + 1)
      (before ++ [headers]).flatten).length ≤
      params.maxCommitments) : Advances P params session before headers (InPresync P params)
        fun done => InRedownload P params done [] := by
  unfold Advances
  rw [flatten_append, flatten_singleton] at hpre hmax ⊢
  have hbefore := (prefix_append _ _).trans hpre
  obtain ⟨hrd, -, hpresynced⟩ := h.inv.presync h.state
  rw [h.taken] at hpresynced
  have hsynced := hpresynced hchain.start_nonneg (hchain.height_lt hbefore)
  obtain ⟨s', hloop⟩ := hsynced.accepts_all hchain hpre hmax
  have hafter := hsynced.headers hchain.start_nonneg (hchain.height_lt hpre) hloop
  have hwork := hafter.work (hchain.work_lt hpre)
  obtain ⟨header, rest, rfl⟩ := exists_cons_of_ne_nil hne
  have hprev : (header.hashPrevBlock != session.sync.lastHeaderReceived.getHash P) = false := by
    rw [hchain.hashPrev (prefix_of_append_cons hpre), lastHash_eq_getLastD, hsynced.last,
      bne_self_eq_false]
  have hcall : session.sync.processNextHeaders P params (header :: rest) true =
      (⟨[], true, true⟩, s'.maybeRedownload P params) := by
    simp only [processNextHeaders, h.state, processPresync,
      validateAndStoreHeadersCommitments, hprev, hloop]
    rfl
  have hsucceeded := h.succeeded.step P params (header :: rest) (by rw [hcall])
  have hlog : (session.step P params (header :: rest, true)).log =
      session.log ++ [⟨session.sync, header :: rest, ⟨[], true, true⟩,
        s'.maybeRedownload P params⟩] := by
    simp [step, hcall]
  have htaken : presynced (session.step P params (header :: rest, true)).log =
      before.flatten ++ header :: rest := by
    rw [hlog, presynced_concat, if_pos ⟨h.state, rfl⟩, h.taken]
  have hsync : (session.step P params (header :: rest, true)).sync =
      s'.maybeRedownload P params := by
    simp [step, hcall]
  constructor
  · intro hless
    refine ⟨h.inv.step _, ?_, htaken.trans (by simp), hsucceeded⟩
    have hframe := (processHeaders_frame P params (header :: rest) session.sync).1
    rw [hloop] at hframe
    rw [hsync, maybeRedownload, if_neg (by omega)]
    exact hframe.trans h.state
  · intro henough
    refine ⟨h.inv.step _, ?_, htaken.trans (by simp), ?_, fun hne => absurd rfl hne, hsucceeded⟩
    · rw [hsync, maybeRedownload, if_pos (by omega)]
    · rw [hlog, (h.inv.stillEmpty h.state).1]
      rfl

theorem InRedownload.message (h : InRedownload P params presync before session)
    (hsize : 1 ≤ params.redownloadBufferSize) (hchain : ServedChain P params chain)
    (hpresync : presync.flatten <+: chain)
    (henough : params.minimumRequiredWork ≤ params.chainStartWork + headersWork presync.flatten)
    (hpre : (before ++ [headers]).flatten <+: chain) (hne : headers ≠ []) :
    Advances P params session before headers (InRedownload P params presync)
      fun done session => session.AllSucceeded ∧ released session.log = done.flatten := by
  unfold Advances
  have hflatten : (before ++ [headers]).flatten = before.flatten ++ headers := by
    rw [flatten_append, flatten_singleton]
  rw [hflatten] at hpre ⊢
  obtain ⟨hbuffered, -, haligned⟩ := h.inv.redownload h.state
  rw [h.presynced] at haligned
  rw [h.taken] at hbuffered
  obtain ⟨s', hloop, hbuffer⟩ := hbuffered.accepts_all hchain hpresync henough
    (haligned hchain.start_nonneg (hchain.height_lt hpresync)) hpre h.buffer
  have hsome : before.flatten ++ headers ≠ [] := by
    simp [hne]
  have hdownloaded := hbuffered.headers hloop
  rcases hpop : s'.popHeadersReadyForAcceptance P params with ⟨ready, s''⟩
  obtain ⟨hpopped, hall, hcomplete, hkept⟩ := hdownloaded.pop hpop
  have hcall := processNextHeaders_redownload hne h.state hloop hpop
  constructor
  · intro hless
    have hpending :=
      Bool.eq_false_iff.mpr fun htrue => by
        have := hdownloaded.enough htrue
        omega
    -- the buffer keeps at least one header, since it has room for one
    have hkeeps : s''.redownloadedHeaders ≠ [] := by
      have hlength := hkept hpending
      have hpos := length_pos_of_ne_nil (hbuffer hsome)
      exact ne_nil_of_length_pos (by omega)
    rw [if_neg fun hlast => hkeeps hlast.1] at hcall
    have hlog : (session.step P params (headers, true)).log =
        session.log ++ [⟨session.sync, headers, ⟨ready, true, true⟩, s''⟩] := by
      simp [step, hcall]
    have hsync : (session.step P params (headers, true)).sync = s'' := by
      simp [step, hcall]
    have hstate : session.sync.downloadState ≠ .presync := fun hpresync =>
      nomatch hpresync.symm.trans h.state
    refine ⟨h.inv.step _, hsync ▸ hpopped.state, ?_, ?_, fun _ => hsync ▸ hkeeps,
      h.succeeded.step P params headers (by rw [hcall])⟩
    · rw [hlog, presynced_concat, if_neg fun hpresync => hstate hpresync.1, append_nil, h.presynced]
    · rw [hlog, redownloaded_concat, if_pos ⟨h.state, rfl⟩, h.taken, hflatten]
  · intro hreached
    have htrue := hdownloaded.reached hsome (hchain.work_lt hpre) hreached
    have hreleased := hcomplete htrue
    have hempty : s''.redownloadedHeaders = [] := by
      obtain ⟨buf, hsplit, hbuf⟩ := hpopped.buffer
      rw [hbuf, self_eq_append_right.mp (hreleased.symm.trans hsplit)]
      rfl
    rw [if_pos ⟨hempty, hall.trans htrue⟩] at hcall
    refine ⟨h.succeeded.step P params headers (by rw [hcall]), ?_⟩
    have hlog : (session.step P params (headers, true)).log =
        session.log ++ [⟨session.sync, headers, ⟨ready, true, false⟩, s''.finalize⟩] := by
      simp [step, hcall]
    rw [hlog, released_concat, hflatten]
    exact hreleased.symm

/-- A phase goes message by message: what each message keeps until there is enough work becomes what
the last one gives. -/
theorem Phase.rule {I Q : List (List CBlockHeader) → Session → Prop}
    (hphase : Phase params chain batches)
    (hmessage : ∀ {before headers session}, I before session → (before ++ [headers]).flatten <+:
      batches.flatten → headers ≠ [] → Advances P params session before headers I Q)
    (h : I before session) (hsplit : batches = before ++ after) (hafter : after ≠ []) :
    Q batches (run (step P params) session (fullMessages after)) := by
  induction after generalizing before session with
  | nil => exact absurd rfl hafter
  | cons headers after ih =>
    have hpart : before ++ headers :: after = (before ++ [headers]) ++ after := append_cons _ _ _
    have hflatten : (before ++ [headers]).flatten <+: batches.flatten :=
      ⟨after.flatten, by rw [hsplit, hpart, ← flatten_append]⟩
    have hnext := hmessage h hflatten (hphase.nonempty headers (by rw [hsplit]; simp))
    by_cases hlast : after = []
    · subst hlast
      rw [hsplit]
      exact hnext.2 (hsplit ▸ hphase.enough)
    · exact ih (hnext.1 (hphase.first _ after (hsplit.trans hpart) (by simp) hlast))
        (hsplit.trans hpart) hlast

private theorem inPresync_start : InPresync P params [] (.start params) where
  inv := sessionInv_start
  state := rfl
  taken := rfl
  succeeded _ he := absurd he not_mem_nil

/-! ### Everything about a sync -/

/-- Whatever messages arrive, what is released is a chain on top of the starting point of headers
that may be released, and the commitments stay within their limit, also during a call. A peer that
serves one chain in both phases, one that changes its difficulty as permitted and needs no more
commitments than allowed, is never refused and gets all headers accepted up to the point of
sufficient work. -/
theorem headersSync_safe (P : Primitives) (params : SyncParams)
    (hsize : 1 ≤ params.redownloadBufferSize) : (∀ messages : List (List CBlockHeader × Bool),
      let session := run (step P params) (.start params) messages
      SafeLog P params session.log ∧ session.sync.headerCommitments.length ≤
        params.maxCommitments ∧ ∀ headers,
          (session.sync.processHeaders P params headers).2.headerCommitments.length ≤
            params.maxCommitments + 1 ∧
          (session.sync.redownloadHeaders P params headers).2.headerCommitments.length ≤
            params.maxCommitments + 1) ∧
      ∀ chain presync redownload, ServedChain P params chain → Phase params chain presync →
        Phase params chain redownload →
        (commitmentsFrom P params (params.chainStartHeight + 1) presync.flatten).length ≤
          params.maxCommitments →
        let session := run (step P params) (.start params)
          (fullMessages presync ++ fullMessages redownload)
        session.AllSucceeded ∧ released session.log = redownload.flatten := by
  refine ⟨fun messages => ?_, fun chain presync redownload hchain hpresync hredownload hmax => ?_⟩
  · have hinv : SessionInv P params _ := sessionInv_run messages
    refine ⟨hinv.safe, hinv.bounded, fun headers =>
      ⟨(length_commitments_headers headers hinv.bounded).1, ?_⟩⟩
    exact (length_commitments_redownloads P params headers _).trans (Nat.le_succ_of_le hinv.bounded)
  · intro session
    -- after the first phase, the second one has nothing yet
    have hswitched :=
      hpresync.rule (fun h hpart hne => h.message hchain (hpart.trans hpresync.ofChain) hne
        ((commitmentsFrom_mono hpart).length_le.trans hmax)) inPresync_start rfl hpresync.ne_nil
    have hsession : session = run (step P params)
        (run (step P params) (.start params) (fullMessages presync)) (fullMessages redownload) :=
      run_append _ _ _ _
    rw [hsession]
    exact hredownload.rule (fun h hpart hne => h.message hsize hchain hpresync.ofChain
      hpresync.enough (hpart.trans hredownload.ofChain) hne) hswitched rfl hredownload.ne_nil

private theorem permitted_of_forall (h : ∀ i : Fin chain.length,
      permittedDifficultyTransition params.pow (params.chainStartHeight + 1 + i)
        ((chain.take i).getLastD params.chainStart).nBits (chain.get i).nBits)
    (ps : List CBlockHeader) (header : CBlockHeader) (hpre : ps ++ [header] <+: chain) :
    permittedDifficultyTransition params.pow (params.chainStartHeight + 1 + ps.length)
      (ps.getLastD params.chainStart).nBits header.nBits := by
  obtain ⟨rest, rfl⟩ := hpre
  have := h ⟨ps.length, by simp⟩
  simpa using this

/-- The messages of a phase that are given. -/
theorem first_of_forall
    (h : ∀ i < batches.length, i ≠ 0 → params.chainStartWork +
      headersWork (batches.take i).flatten < params.minimumRequiredWork)
    (before after : List (List CBlockHeader)) (hsplit : batches = before ++ after)
    (hbefore : before ≠ []) (hafter : after ≠ []) :
    params.chainStartWork + headersWork before.flatten < params.minimumRequiredWork := by
  subst hsplit
  have hlt : before.length < (before ++ after).length := by
    rw [length_append]
    exact Nat.lt_add_of_pos_right (length_pos_of_ne_nil hafter)
  have := h before.length hlt (by simpa using hbefore)
  rwa [take_left] at this

namespace ThreeHeaders

/-- A network with little work. -/
def pow : PowParams := ⟨2 ^ 255 - 1, false, 600, 1209600, by decide, by decide⟩

def genesis : CBlockHeader := ⟨1, .null 32, .null 32, 0, 0x207fffff, 0⟩

def next (prev : CBlockHeader) (bits : UInt32) : CBlockHeader :=
  ⟨1, prev.getHash .repeating, .null 32, prev.nTime + 1, bits, 0⟩

def header₁ : CBlockHeader := next genesis 0x207fffff
def header₂ : CBlockHeader := next header₁ 0x207fffff
def header₃ : CBlockHeader := next header₂ 0x207fffff

/-- Every block has a work of two, and three blocks on top of the first one are needed. -/
def network : SyncParams where
  pow := pow
  commitmentPeriod := 2
  redownloadBufferSize := 1
  commitOffset := 1
  chainStart := genesis
  chainStartHeight := 0
  chainStartWork := 2
  minimumRequiredWork := 8
  maxCommitments := 2
  commitment hash := hash.data.getLastD 0 % 2 == 1
  period_pos := by decide
  offset_lt := by decide

private theorem served : ServedChain .repeating network [header₁, header₂, header₃] where
  linked := by simp [Linked]; decide +kernel
  permitted := permitted_of_forall (by decide +kernel)
  start_nonneg := by decide
  height := by decide
  work := by decide +kernel

private theorem twoMessages : Phase network [header₁, header₂, header₃]
    [[header₁, header₂], [header₃]] :=
  ⟨by decide, by decide, by decide +kernel, by decide +kernel, first_of_forall (by decide +kernel)⟩

private theorem threeMessages : Phase network [header₁, header₂, header₃]
    [[header₁], [header₂], [header₃]] :=
  ⟨by decide, by decide, by decide +kernel, by decide +kernel, first_of_forall (by decide +kernel)⟩

end ThreeHeaders

open ThreeHeaders in
theorem headersSync_safe_three : released (run (step .repeating network) (.start network)
      (fullMessages [[header₁, header₂], [header₃]] ++
        fullMessages [[header₁], [header₂], [header₃]])).log = [header₁, header₂, header₃] :=
  ((headersSync_safe .repeating network (by decide)).2 _ _ _ served twoMessages threeMessages
    (by decide +kernel)).2

namespace ThreeHeaders

/-- A header with much more work than the one before. -/
def jump : CBlockHeader := next genesis 0x1f7fffff

private theorem jumpMessage : Phase network [jump] [[jump]] :=
  ⟨by decide, by decide, by decide +kernel, by decide +kernel, first_of_forall (by decide +kernel)⟩

end ThreeHeaders

open ThreeHeaders in
/-- A peer that serves a chain with enough work in both phases is refused if the difficulty jumps.
-/
theorem headersSync_forbidden_transition :
    Linked .repeating (network.startHash .repeating) [jump] ∧ Phase network [jump] [[jump]] ∧
      (commitmentsFrom .repeating network 1 [jump]).length ≤ network.maxCommitments ∧
      let session := run (step .repeating network) (.start network)
        (fullMessages [[jump]] ++ fullMessages [[jump]])
      (session.log.map fun e => e.result.success) = [false, false] ∧ released session.log = [] := by
  refine ⟨?_, jumpMessage, by decide +kernel, by decide +kernel, by decide +kernel⟩
  simp only [Linked]
  decide +kernel

end Tessera.Net
