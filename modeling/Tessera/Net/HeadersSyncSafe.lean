import Tessera.Net.HeadersSync

/-!
# What a headers sync releases

The headers that a sync releases are a chain from its starting point, and none is released before
the peer has shown the work again or enough commitments have been seen to match
(`headersSync_safe`). An honest peer, whose chain changes its difficulty as permitted, gets all of
its headers accepted.

In the second phase the state is tied to the log of the calls: what has been downloaded is what has
been released followed by what is in the buffer (`Buffered`).
-/

namespace Tessera.Net

open Lib Validation HeadersSyncState List

variable {P : Primitives} {prev : Uint256} {params : SyncParams} {s s' : HeadersSyncState}
  {ready : List CBlockHeader}

/-! ### Chains of headers -/

section Chains

variable (P)

/-- Each header builds on the one before, and the first one on a given hash. -/
def Linked : Uint256 → List CBlockHeader → Prop
  | _, [] => True
  | prev, header :: headers => header.hashPrevBlock = prev ∧ Linked (header.getHash P) headers

/-- The hash of the last header, or the given one. -/
def lastHash (prev : Uint256) (headers : List CBlockHeader) : Uint256 :=
  headers.foldl (fun _ header => header.getHash P) prev

variable {P}

private theorem lastHash_append (prev : Uint256) (hs hs' : List CBlockHeader) :
    lastHash P prev (hs ++ hs') = lastHash P (lastHash P prev hs) hs' :=
  foldl_append

variable {hs hs' : List CBlockHeader}

theorem linked_append : Linked P prev (hs ++ hs') ↔ Linked P prev hs ∧
    Linked P (lastHash P prev hs) hs' := by
  induction hs generalizing prev with
  | nil => simp [Linked, lastHash]
  | cons header hs ih =>
    rw [cons_append, Linked, Linked, ih, and_assoc]
    rfl

theorem Linked.of_prefix (h : Linked P prev hs') (hpre : hs <+: hs') : Linked P prev hs := by
  obtain ⟨rest, rfl⟩ := hpre
  exact (linked_append.mp h).1

end Chains

/-! ### Commitments -/

section Commitments

variable (P) (params)

/-- The commitments of headers from a height on. -/
def commitmentsFrom : Int → List CBlockHeader → List Bool
  | _, [] => []
  | height, header :: headers =>
    if params.atCommitment height then
      params.commitment (header.getHash P) :: commitmentsFrom (height + 1) headers
    else commitmentsFrom (height + 1) headers

variable {P params}

theorem commitmentsFrom_append (height : Int) (hs hs' : List CBlockHeader) :
    commitmentsFrom P params height (hs ++ hs') =
      commitmentsFrom P params height hs ++ commitmentsFrom P params (height + hs.length) hs' := by
  induction hs generalizing height with
  | nil => simp [commitmentsFrom]
  | cons header hs ih =>
    have hheight : height + 1 + (hs.length : Int) = height + ((header :: hs).length : Int) := by
      rw [length_cons]
      omega
    simp only [cons_append, commitmentsFrom, ih, hheight]
    split <;> rfl

theorem commitmentsFrom_singleton (height : Int) (header : CBlockHeader) :
    commitmentsFrom P params height [header] =
      if params.atCommitment height then [params.commitment (header.getHash P)] else [] := rfl

end Commitments

/-! ### The second phase -/

section Redownload

variable {rd rl : List CBlockHeader}
  {stored : List Bool}

variable (P params) in
/-- The state after the headers `rd` have been downloaded again and `rl` of them have been released,
where `stored` are the commitments of the first phase. -/
structure Buffered (stored : List Bool) (rd rl : List CBlockHeader)
    (s : HeadersSyncState) : Prop where
  state : s.downloadState = .redownload
  buffer : ∃ buf, rd = rl ++ buf ∧ s.redownloadedHeaders = buf.map .ofHeader
  linked : Linked P (params.startHash P) rd
  last : s.redownloadBufferLastHash = lastHash P (params.startHash P) rd
  firstPrev : s.redownloadBufferFirstPrevHash = lastHash P (params.startHash P) rl
  height : s.redownloadBufferLastHeight = params.chainStartHeight + rd.length
  work : s.redownloadChainWork ≤ params.chainStartWork + headersWork rd
  exact : params.chainStartWork + headersWork rd < 2 ^ 256 →
    s.redownloadChainWork = params.chainStartWork + headersWork rd
  reached : rd ≠ [] → params.chainStartWork + headersWork rd < 2 ^ 256 →
    params.minimumRequiredWork ≤ params.chainStartWork + headersWork rd →
    s.processAllRemainingHeaders = true
  enough : s.processAllRemainingHeaders = true →
    params.minimumRequiredWork ≤ params.chainStartWork + headersWork rd
  matched : s.processAllRemainingHeaders = false →
    commitmentsFrom P params (params.chainStartHeight + 1) rd ++ s.headerCommitments = stored

private theorem Buffered.released_prefix (h : Buffered P params stored rd rl s) : rl <+: rd := by
  obtain ⟨buf, rfl, -⟩ := h.buffer
  exact prefix_append rl buf

variable (P params) in
/-- A header is taken in the second phase if it builds on the last one and its commitment, if that
has to be compared, is the next one that is stored. -/
theorem validateAndStoreRedownloadedHeader_cases (header : CBlockHeader) (s : HeadersSyncState) :
    let check := !(s.trackWork params header).processAllRemainingHeaders &&
      params.atCommitment (s.redownloadBufferLastHeight + 1)
    (∃ s', s.validateAndStoreRedownloadedHeader P params header = (false, s') ∧
        s'.headerCommitments.length ≤ s.headerCommitments.length) ∨
      (header.hashPrevBlock = s.redownloadBufferLastHash ∧ ∃ rest,
        s.headerCommitments = (if check then [params.commitment (header.getHash P)] else []) ++
        rest ∧ s.validateAndStoreRedownloadedHeader P params header =
          (true, storeHeader P header (s.redownloadBufferLastHeight + 1)
            { s.trackWork params header with headerCommitments := rest })) := by
  unfold validateAndStoreRedownloadedHeader
  dsimp only
  split
  · exact .inl ⟨s, rfl, le_rfl⟩
  rename_i hprev
  rw [bne_iff_ne, not_not] at hprev
  split
  · exact .inl ⟨s, rfl, le_rfl⟩
  split
  · unfold checkCommitment
    cases hcommitments : (s.trackWork params header).headerCommitments with
    | nil => exact .inl ⟨_, rfl, le_rfl⟩
    | cons expected rest =>
      have hcons : s.headerCommitments = expected :: rest := hcommitments
      by_cases hbit : params.commitment (header.getHash P) = expected
      · exact .inr ⟨hprev, rest, hbit ▸ hcons, by simp [hbit]⟩
      · dsimp only
        rw [beq_false_of_ne hbit]
        exact .inl ⟨_, rfl, by simp [hcons]⟩
  · exact .inr ⟨hprev, s.headerCommitments, rfl, rfl⟩

private theorem trackWork_le (header : CBlockHeader)
    (hwork : s.redownloadChainWork ≤ params.chainStartWork + headersWork rd) :
    (s.trackWork params header).redownloadChainWork ≤ params.chainStartWork +
      headersWork (rd ++ [header]) := by
  rw [headersWork_append, headersWork_singleton]
  simp only [trackWork]
  omega

section

variable (h : Buffered P params stored rd rl s)

include h

/-- The work is really there when the state says so: what it tracks never exceeds it. -/
theorem Buffered.trackWork_enough {header : CBlockHeader}
    (hall : (s.trackWork params header).processAllRemainingHeaders) :
    params.minimumRequiredWork ≤ params.chainStartWork + headersWork (rd ++ [header]) := by
  have htracked := trackWork_le header h.work
  simp only [trackWork, Bool.or_eq_true, decide_eq_true_eq] at hall htracked
  rcases hall with hall | hall
  · have := h.enough hall
    rw [headersWork_append]
    omega
  · omega

/-- If no work is lost by overflow, then what is tracked is the work. -/
theorem Buffered.trackWork_exact {header : CBlockHeader}
    (hlt : params.chainStartWork + headersWork (rd ++ [header]) < 2 ^ 256) :
    (s.trackWork params header).redownloadChainWork = params.chainStartWork +
      headersWork (rd ++ [header]) := by
  rw [headersWork_append, headersWork_singleton] at hlt ⊢
  simp only [trackWork]
  rw [h.exact (by omega), ← add_assoc, Nat.mod_eq_of_lt (by omega)]

theorem Buffered.trackWork_reached {header : CBlockHeader}
    (hlt : params.chainStartWork + headersWork (rd ++ [header]) < 2 ^ 256)
    (hmin : params.minimumRequiredWork ≤ params.chainStartWork + headersWork (rd ++ [header])) :
    (s.trackWork params header).processAllRemainingHeaders := by
  rw [← h.trackWork_exact hlt] at hmin
  simp only [trackWork, Bool.or_eq_true, decide_eq_true_eq]
  exact .inr hmin

theorem Buffered.trackWork_matched {header : CBlockHeader}
    (hall : (s.trackWork params header).processAllRemainingHeaders = false) :
    commitmentsFrom P params (params.chainStartHeight + 1) rd ++ s.headerCommitments = stored := by
  simp only [trackWork, Bool.or_eq_false_iff] at hall
  exact h.matched hall.1

/-- One more header in the second phase. -/
theorem Buffered.header {header : CBlockHeader}
    (hstep : s.validateAndStoreRedownloadedHeader P params header = (true, s')) :
    Buffered P params stored (rd ++ [header]) rl s' := by
  rcases validateAndStoreRedownloadedHeader_cases P params header s with ⟨_, hrun, -⟩ |
    ⟨hprev, rest, hrest, hrun⟩
  · cases hrun.symm.trans hstep
  cases hrun.symm.trans hstep
  obtain ⟨buf, rfl, hbuf⟩ := h.buffer
  have hbuffer : ∃ buf', (rl ++ buf) ++ [header] = rl ++ buf' ∧
      s.redownloadedHeaders ++ [.ofHeader header] = buf'.map .ofHeader :=
    ⟨buf ++ [header], append_assoc _ _ _, by rw [hbuf, map_append]; rfl⟩
  have hlinked : Linked P (params.startHash P) ((rl ++ buf) ++ [header]) :=
    linked_append.mpr ⟨h.linked, hprev.trans h.last, trivial⟩
  have hlast : header.getHash P = lastHash P (params.startHash P) ((rl ++ buf) ++ [header]) := by
    rw [lastHash_append]
    rfl
  have hheight : s.redownloadBufferLastHeight + 1 =
      params.chainStartHeight + (((rl ++ buf) ++ [header]).length : Nat) := by
    rw [h.height]
    simp only [length_append, length_singleton]
    omega
  have hnext : params.chainStartHeight + 1 + ((rl ++ buf).length : Int) =
      s.redownloadBufferLastHeight + 1 := by
    rw [h.height]
    omega
  refine ⟨h.state, hbuffer, hlinked, hlast, h.firstPrev, hheight, trackWork_le header h.work,
    h.trackWork_exact, fun _ => h.trackWork_reached, h.trackWork_enough, fun hall => ?_⟩
  have hall' : (s.trackWork params header).processAllRemainingHeaders = false := hall
  -- the commitment is the next one that is stored
  rw [← h.trackWork_matched hall, hrest, hall', commitmentsFrom_append, hnext, append_assoc]
  rfl

/-- The headers of a message in the second phase. -/
theorem Buffered.headers {headers : List CBlockHeader}
    (hloop : s.redownloadHeaders P params headers = (true, s')) :
    Buffered P params stored (rd ++ headers) rl s' := by
  induction headers generalizing rd s with
  | nil =>
    cases hloop
    rwa [append_nil]
  | cons header headers ih =>
    rw [redownloadHeaders] at hloop
    split at hloop
    next s₁ hstep =>
      rw [append_cons]
      exact ih (h.header hstep) hloop
    · cases hloop

end

variable (params) in
/-- What the loop pops is a first part of the buffer, with the hashes filled in again. -/
theorem popHeaders_spec (all : Bool) {buf : List CBlockHeader} (hlinked : Linked P prev buf) :
    ∃ popped kept, buf = popped ++ kept ∧ popHeaders P params all prev (buf.map .ofHeader) =
        (popped, kept.map .ofHeader, lastHash P prev popped) ∧
      (all → kept = []) ∧
      (all = false → kept.length = min buf.length params.redownloadBufferSize) := by
  induction buf generalizing prev with
  | nil => exact ⟨[], [], rfl, rfl, fun _ => rfl, fun _ => rfl⟩
  | cons header buf ih =>
    obtain ⟨rfl, hrest⟩ := hlinked
    rw [map_cons, popHeaders]
    split
    next hpop =>
      obtain ⟨popped, kept, rfl, hrun, hall, hlength⟩ := ih hrest
      refine ⟨header :: popped, kept, rfl, ?_, hall, fun hall' => ?_⟩
      · dsimp only
        rw [CompressedHeader.getFullHeader_ofHeader, hrun]
        rfl
      · rw [hall', Bool.or_false, decide_eq_true_eq, length_cons, length_map] at hpop
        rw [hlength hall', length_cons]
        omega
    next hpop =>
      rw [Bool.or_eq_true, decide_eq_true_eq, not_or, length_cons, length_map] at hpop
      refine ⟨[], header :: buf, rfl, rfl, fun hall => absurd hall hpop.2, fun _ => ?_⟩
      rw [length_cons]
      omega

/-- What is popped is released. Everything is, if the work has been reached; otherwise the buffer
keeps its size. -/
theorem Buffered.pop (h : Buffered P params stored rd rl s)
    (hpop : s.popHeadersReadyForAcceptance P params = (ready, s')) : Buffered P params stored rd
      (rl ++ ready) s' ∧ s'.processAllRemainingHeaders = s.processAllRemainingHeaders ∧
      (s.processAllRemainingHeaders → rd = rl ++ ready) ∧
      (s.processAllRemainingHeaders = false →
        s'.redownloadedHeaders.length = min s.redownloadedHeaders.length
          params.redownloadBufferSize) := by
  obtain ⟨buf, rfl, hbuf⟩ := h.buffer
  have hlinked := (linked_append.mp h.linked).2
  obtain ⟨popped, kept, rfl, hrun, hall, hlength⟩ :=
    popHeaders_spec params s.processAllRemainingHeaders hlinked
  unfold popHeadersReadyForAcceptance at hpop
  rw [hbuf, h.firstPrev, hrun] at hpop
  cases hpop
  refine ⟨⟨h.state, ⟨kept, by rw [append_assoc], rfl⟩, h.linked, h.last, ?_, h.height,
    h.work, h.exact,
    h.reached, h.enough, h.matched⟩, rfl, fun htrue =>
      by rw [hall htrue, append_nil], fun hfalse => ?_⟩
  · exact (lastHash_append _ _ _).symm
  · rw [hbuf, length_map, length_map]
    exact hlength hfalse

end Redownload

/-! ### The first phase -/

section Presync

variable {ps : List CBlockHeader}

theorem toInt32_eq {n : Int} (h : 0 ≤ n) (h' : n < 2 ^ 31) : toInt32 n = n := by
  exact Int.bmod_eq_of_le (by omega) (by omega)

variable (P params) in
/-- The ways in which a header can be treated in the first phase. -/
theorem validateAndProcessSingleHeader_cases (header : CBlockHeader) (s : HeadersSyncState) :
    let nextHeight := toInt32 (s.currentHeight + 1)
    let pushed := if params.atCommitment nextHeight then s.pushCommitment P params header else s
    (∃ s', s.validateAndProcessSingleHeader P params header = (false, s') ∧
        (s' = s ∨ s' = s.pushCommitment P params header)) ∨
      (s.validateAndProcessSingleHeader P params header =
        (true, pushed.takeHeader header nextHeight) ∧
        (s.headerCommitments.length ≤ params.maxCommitments →
          pushed.headerCommitments.length ≤ params.maxCommitments)) := by
  unfold validateAndProcessSingleHeader
  dsimp only
  split
  · exact .inl ⟨s, rfl, .inl rfl⟩
  split
  · split
    · exact .inl ⟨_, rfl, .inr rfl⟩
    next hmax => exact .inr ⟨rfl, fun _ => not_lt.mp hmax⟩
  · exact .inr ⟨rfl, id⟩

/-- A header adds at most one commitment, and only the one that makes the call fail exceeds the
limit. -/
theorem length_commitments_headers (headers : List CBlockHeader)
    (h : s.headerCommitments.length ≤ params.maxCommitments) :
    (s.processHeaders P params headers).2.headerCommitments.length ≤ params.maxCommitments + 1 ∧
      ((s.processHeaders P params headers).1 →
        (s.processHeaders P params headers).2.headerCommitments.length ≤
          params.maxCommitments) := by
  induction headers generalizing s with
  | nil => exact ⟨Nat.le_succ_of_le h, fun _ => h⟩
  | cons header headers ih =>
    rw [processHeaders]
    rcases validateAndProcessSingleHeader_cases P params header s with ⟨_, hrun, rfl | rfl⟩ |
      ⟨hrun, hmax⟩ <;> rw [hrun]
    · exact ⟨Nat.le_succ_of_le h, nofun⟩
    · exact ⟨by simpa [pushCommitment] using h, nofun⟩
    · exact ih (hmax h)

variable (P params) in
/-- The second phase only takes commitments away. -/
theorem length_commitments_redownloads (headers : List CBlockHeader) (s : HeadersSyncState) :
    (s.redownloadHeaders P params headers).2.headerCommitments.length ≤
      s.headerCommitments.length := by
  induction headers generalizing s with
  | nil => exact le_rfl
  | cons header headers ih =>
    rw [redownloadHeaders]
    rcases validateAndStoreRedownloadedHeader_cases P params header s with
      ⟨_, hrun, hle⟩ | ⟨-, rest, hrest, hrun⟩ <;> rw [hrun]
    · exact hle
    · refine (ih _).trans ?_
      rw [hrest, length_append]
      exact Nat.le_add_left _ _

variable (P params) in
/-- The state after the headers `ps` have been taken in the first phase. -/
structure Presynced (ps : List CBlockHeader) (s : HeadersSyncState) : Prop where
  last : s.lastHeaderReceived = ps.getLastD params.chainStart
  height : s.currentHeight = params.chainStartHeight + ps.length
  work : params.chainStartWork + headersWork ps < 2 ^ 256 →
    s.currentChainWork = params.chainStartWork + headersWork ps
  commitments : s.headerCommitments = commitmentsFrom P params (params.chainStartHeight + 1) ps

/-- One more header in the first phase, at a height that is an `int`. -/
theorem Presynced.header (h : Presynced P params ps s) {header : CBlockHeader}
    (hstart : 0 ≤ params.chainStartHeight)
    (hheight : params.chainStartHeight + ps.length + 1 < 2 ^ 31)
    (hstep : s.validateAndProcessSingleHeader P params header = (true, s')) :
    Presynced P params (ps ++ [header]) s' := by
  have hnext : toInt32 (s.currentHeight + 1) = params.chainStartHeight + 1 + ps.length := by
    rw [h.height, toInt32_eq (by omega) (by omega)]
    omega
  have hlength : params.chainStartHeight + 1 + (ps.length : Int) =
      params.chainStartHeight + ((ps ++ [header]).length : Nat) := by
    rw [length_append, length_singleton]
    omega
  have hlast : header = (ps ++ [header]).getLastD params.chainStart := by simp
  have hwork : params.chainStartWork + headersWork (ps ++ [header]) < 2 ^ 256 →
      (s.currentChainWork + getBitsProof header.nBits) % 2 ^ 256 =
        params.chainStartWork + headersWork (ps ++ [header]) := by
    intro hlt
    rw [headersWork_append, headersWork_singleton] at hlt ⊢
    rw [h.work (by omega), ← add_assoc, Nat.mod_eq_of_lt (by omega)]
  have hcommitments : commitmentsFrom P params (params.chainStartHeight + 1) (ps ++ [header]) = _ :=
    commitmentsFrom_append _ ps [header]
  rcases validateAndProcessSingleHeader_cases P params header s with ⟨_, hrun, -⟩ | ⟨hrun, -⟩
  · cases hrun.symm.trans hstep
  cases hrun.symm.trans hstep
  rw [hnext]
  split
  next hat =>
    refine ⟨hlast, hlength, hwork, ?_⟩
    rw [hcommitments, commitmentsFrom_singleton, if_pos hat, ← h.commitments]
    rfl
  next hat =>
    refine ⟨hlast, hlength, hwork, ?_⟩
    rw [hcommitments, commitmentsFrom_singleton, if_neg hat, ← h.commitments, append_nil]
    rfl

theorem Presynced.headers (h : Presynced P params ps s) {headers : List CBlockHeader}
    (hstart : 0 ≤ params.chainStartHeight)
    (hheight : params.chainStartHeight + (ps ++ headers).length < 2 ^ 31)
    (hloop : s.processHeaders P params headers = (true, s')) : Presynced P params
      (ps ++ headers) s' := by
  induction headers generalizing ps s with
  | nil =>
    cases hloop
    rwa [append_nil]
  | cons header headers ih =>
    rw [processHeaders] at hloop
    rw [length_append, length_cons] at hheight
    split at hloop
    next s₁ hstep =>
      rw [append_cons]
      refine ih (h.header hstart (by omega) hstep) ?_ hloop
      simp only [length_append, length_singleton]
      omega
    · cases hloop

variable (P params) in
/-- The first phase does not touch what belongs to the second one. -/
theorem processHeaders_frame (headers : List CBlockHeader) (s : HeadersSyncState) :
    (s.processHeaders P params headers).2.downloadState = s.downloadState ∧
      (s.processHeaders P params headers).2.processAllRemainingHeaders =
        s.processAllRemainingHeaders := by
  induction headers generalizing s with
  | nil => exact ⟨rfl, rfl⟩
  | cons header headers ih =>
    rw [processHeaders]
    rcases validateAndProcessSingleHeader_cases P params header s with ⟨_, hrun, rfl | rfl⟩ |
      ⟨hrun, -⟩ <;> rw [hrun]
    · exact ⟨rfl, rfl⟩
    · exact ⟨rfl, rfl⟩
    · dsimp only
      rw [(ih _).1, (ih _).2]
      split <;> exact ⟨rfl, rfl⟩

end Presync

/-! ### What a call does -/

section Calls

variable (P) (params)

/-- The ways in which a call can go. -/
inductive CallCase (headers : List CBlockHeader) (full : Bool) (s : HeadersSyncState) :
    ProcessingResult × HeadersSyncState → Prop
  | idle (h : headers = [] ∨ s.downloadState = .final) : CallCase headers full s
    (⟨[], false, false⟩, s)
  | aborted (s' : HeadersSyncState) : CallCase headers full s (⟨[], false, false⟩, s'.finalize)
  | ended (s' : HeadersSyncState) (presync : s.downloadState = .presync) (notFull : full = false) :
    CallCase headers full s (⟨[], true, false⟩, s'.finalize)
  | committed (s' : HeadersSyncState) (presync : s.downloadState = .presync)
      (loop : s.processHeaders P params headers = (true, s'))
      (more : s'.currentChainWork < params.minimumRequiredWork) :
    CallCase headers full s (⟨[], true, true⟩, s')
  | switched (s' : HeadersSyncState) (presync : s.downloadState = .presync)
      (loop : s.processHeaders P params headers = (true, s'))
      (enough : params.minimumRequiredWork ≤ s'.currentChainWork) :
    CallCase headers full s (⟨[], true, true⟩, s'.maybeRedownload P params)
  | redownloaded (s' s'' : HeadersSyncState) (ready : List CBlockHeader)
      (redownload : s.downloadState = .redownload)
      (loop : s.redownloadHeaders P params headers = (true, s'))
      (pop : s'.popHeadersReadyForAcceptance P params = (ready, s''))
      (more : ¬(s''.redownloadedHeaders = [] ∧ s''.processAllRemainingHeaders = true)) :
    CallCase headers full s (⟨ready, true, true⟩, s'')
  | completed (s' s'' : HeadersSyncState) (ready : List CBlockHeader)
      (redownload : s.downloadState = .redownload)
      (loop : s.redownloadHeaders P params headers = (true, s'))
      (pop : s'.popHeadersReadyForAcceptance P params = (ready, s''))
      (last : (s''.redownloadedHeaders = [] ∧ s''.processAllRemainingHeaders = true) ∨
        full = false) :
    CallCase headers full s (⟨ready, true, false⟩, s''.finalize)

private theorem processPresync_case (header : CBlockHeader) (headers : List CBlockHeader)
    (full : Bool) (s : HeadersSyncState) (hstate : s.downloadState = .presync) : CallCase P params
      (header :: headers) full s (finish (s.processPresync P params header headers full)) := by
  unfold processPresync validateAndStoreHeadersCommitments
  split
  next s₂ hrun =>
    split at hrun
    · cases hrun
    split at hrun
    next s₁ hloop =>
      cases hrun
      by_cases hwork : params.minimumRequiredWork ≤ s₁.currentChainWork
      · have hredownload : (s₁.maybeRedownload P params).downloadState = .redownload := by
          rw [maybeRedownload, if_pos hwork]
        simp only [hredownload, beq_self_eq_true, Bool.or_true]
        exact .switched s₁ hstate hloop hwork
      · have hpresync : s₁.downloadState = .presync := by
          have := (processHeaders_frame P params (header :: headers) s).1
          rwa [hloop, hstate] at this
        rw [maybeRedownload, if_neg hwork, hpresync]
        cases full with
        | true => exact .committed s₁ hstate hloop (not_le.mp hwork)
        | false => exact .ended s₁ hstate rfl
    · cases hrun
  · exact .aborted _

private theorem processRedownload_case (headers : List CBlockHeader) (full : Bool)
    (s : HeadersSyncState) (hstate : s.downloadState = .redownload) :
    CallCase P params headers full s (finish (s.processRedownload P params headers full)) := by
  unfold processRedownload
  split
  next s₁ hloop =>
    rcases hpop : s₁.popHeadersReadyForAcceptance P params with ⟨ready, s₂⟩
    dsimp only
    cases hmore : !(s₂.redownloadedHeaders.isEmpty && s₂.processAllRemainingHeaders) && full with
    | false =>
      simp only [Bool.and_eq_false_iff, Bool.not_eq_false', Bool.and_eq_true, List.isEmpty_iff]
        at hmore
      exact .completed s₁ s₂ ready hstate hloop hpop hmore
    | true =>
      simp only [Bool.and_eq_true, Bool.not_eq_true', Bool.eq_false_iff, ne_eq, List.isEmpty_iff]
        at hmore
      exact .redownloaded s₁ s₂ ready hstate hloop hpop hmore.1
  · exact .aborted _

private theorem processNextHeaders_case (headers : List CBlockHeader) (full : Bool)
    (s : HeadersSyncState) :
    CallCase P params headers full s (s.processNextHeaders P params headers full) := by
  cases headers with
  | nil => exact .idle (.inl rfl)
  | cons header headers =>
    cases hstate : s.downloadState with
    | presync =>
      simp only [processNextHeaders, hstate]
      exact processPresync_case P params header headers full s hstate
    | redownload =>
      simp only [processNextHeaders, hstate]
      exact processRedownload_case P params (header :: headers) full s hstate
    | final =>
      simp only [processNextHeaders, hstate]
      exact .idle (.inr hstate)

end Calls

/-! ### Sessions -/

section Sessions

variable {log : List Exchange} {e : Exchange}

theorem released_concat : released (log ++ [e]) = released log ++ e.result.powValidatedHeaders := by
  simp [released]

private theorem headersOf_concat (p : Exchange → Bool) : ((log ++ [e]).filter p).flatMap
      Exchange.headers =
        (log.filter p).flatMap Exchange.headers ++ if p e = true then e.headers else [] := by
  by_cases h : p e <;> simp [h]

theorem redownloaded_concat : redownloaded (log ++ [e]) = redownloaded log ++
      if e.before.downloadState = .redownload ∧ e.result.success = true then e.headers else [] := by
  rw [redownloaded, headersOf_concat]
  simp only [Bool.and_eq_true, beq_iff_eq]
  rfl

theorem presynced_concat : presynced (log ++ [e]) = presynced log ++
      if e.before.downloadState = .presync ∧ e.result.success = true then e.headers else [] := by
  rw [presynced, headersOf_concat]
  simp only [Bool.and_eq_true, beq_iff_eq]
  rfl

private theorem storedCommitments_concat : storedCommitments (log ++ [e]) =
      if e.before.downloadState = .presync then e.after.headerCommitments
      else storedCommitments log := by
  rw [storedCommitments]
  by_cases h : e.before.downloadState = .presync
  · simp [h]
  · simp [h, storedCommitments]

variable (log) in
private theorem concat_failed (hready : e.result.powValidatedHeaders = [])
    (hfailed : e.result.success = false) :
    released (log ++ [e]) = released log ∧ redownloaded (log ++ [e]) = redownloaded log ∧
      presynced (log ++ [e]) = presynced log := by
  refine ⟨?_, ?_, ?_⟩
  · rw [released_concat, hready, append_nil]
  · rw [redownloaded_concat, if_neg (by simp [hfailed]), append_nil]
  · rw [presynced_concat, if_neg (by simp [hfailed]), append_nil]

variable (P) (params)

/-- Why the header that is released at a position may be released: the work has been reached at it
or at a later header, or more headers than the buffer holds have been downloaded from it on, and all
commitments have matched those of the first phase. -/
def Justified (log : List Exchange) (i : Nat) : Prop :=
  (∃ j, i ≤ j ∧ j < (redownloaded log).length ∧
      params.minimumRequiredWork ≤ params.chainStartWork +
      headersWork ((redownloaded log).take (j + 1))) ∨
    (params.redownloadBufferSize < (redownloaded log).length - i ∧
      commitmentsFrom P params (params.chainStartHeight + 1) (redownloaded log) <+:
        storedCommitments log)

/-- What has been released so far is a chain of headers that may be released. As long as heights are
within an `int`, the commitments of the first phase are those of the same heights. -/
structure SafeLog (log : List Exchange) : Prop where
  inOrder : released log <+: redownloaded log
  linked : Linked P (params.startHash P) (released log)
  justified : ∀ i < (released log).length, Justified P params log i
  aligned : redownloaded log ≠ [] → 0 ≤ params.chainStartHeight →
    params.chainStartHeight + (presynced log).length < 2 ^ 31 →
    storedCommitments log = commitmentsFrom P params (params.chainStartHeight + 1) (presynced log)

/-- What holds between two calls. -/
structure SessionInv (s : Session) : Prop where
  safe : SafeLog P params s.log
  pending : s.sync.processAllRemainingHeaders = false
  bounded : s.sync.headerCommitments.length ≤ params.maxCommitments
  presync : s.sync.downloadState = .presync → redownloaded s.log = [] ∧ released s.log = [] ∧
    (0 ≤ params.chainStartHeight → params.chainStartHeight + (presynced s.log).length < 2 ^ 31 →
      Presynced P params (presynced s.log) s.sync)
  redownload : s.sync.downloadState = .redownload →
    Buffered P params (storedCommitments s.log) (redownloaded s.log) (released s.log) s.sync ∧
    (released s.log ≠ [] → (released s.log).length + params.redownloadBufferSize ≤
      (redownloaded s.log).length) ∧
    (0 ≤ params.chainStartHeight → params.chainStartHeight + (presynced s.log).length < 2 ^ 31 →
      storedCommitments s.log = commitmentsFrom P params (params.chainStartHeight + 1)
        (presynced s.log))

variable {P params} {s : Session}

private theorem safeLog_of_nil (hrd : redownloaded log = []) (hrl : released log = []) :
    SafeLog P params log := by
  refine ⟨by rw [hrl]; exact nil_prefix, by rw [hrl]; exact trivial, fun i hi => ?_,
    fun hne => absurd hrd hne⟩
  rw [hrl] at hi
  exact absurd hi (Nat.not_lt_zero i)

/-- A call that adds nothing keeps the log safe. -/
theorem SafeLog.idle (h : SafeLog P params log) (hready : e.result.powValidatedHeaders = [])
    (hstate : e.before.downloadState ≠ .presync) (hfailed : e.result.success = false) :
    SafeLog P params (log ++ [e]) := by
  obtain ⟨hrl, hrd, hps⟩ := concat_failed log hready hfailed
  have hstored : storedCommitments (log ++ [e]) = storedCommitments log := by
    rw [storedCommitments_concat, if_neg hstate]
  refine ⟨by rw [hrl, hrd]; exact h.inOrder, by rw [hrl]; exact h.linked, fun i hi => ?_, ?_⟩
  · rw [hrl] at hi
    rw [Justified, hrd, hstored]
    exact h.justified i hi
  · rw [hrd, hps, hstored]
    exact h.aligned

variable {t : HeadersSyncState}

/-- The log is safe if what has been released is spaced from what has been downloaded, or the work
has been reached. -/
theorem Buffered.safeLog
    (h : Buffered P params (storedCommitments log) (redownloaded log) (released log) t)
    (hspaced : released log ≠ [] → t.processAllRemainingHeaders = false →
      (released log).length + params.redownloadBufferSize ≤ (redownloaded log).length)
    (haligned : 0 ≤ params.chainStartHeight → params.chainStartHeight +
      (presynced log).length < 2 ^ 31 →
      storedCommitments log = commitmentsFrom P params (params.chainStartHeight + 1)
        (presynced log)) :
    SafeLog P params log := by
  refine ⟨h.released_prefix, h.linked.of_prefix h.released_prefix, fun i hi => ?_,
    fun _ => haligned⟩
  have hlength := h.released_prefix.length_le
  cases hall : t.processAllRemainingHeaders with
  | true =>
    refine .inl ⟨(redownloaded log).length - 1, by omega, by omega, ?_⟩
    rw [take_of_length_le (by omega)]
    exact h.enough hall
  | false =>
    have hne : released log ≠ [] := ne_nil_of_length_pos (by omega)
    have := hspaced hne hall
    exact .inr ⟨by omega, ⟨_, h.matched hall⟩⟩

theorem sessionInv_start : SessionInv P params (.start params) where
  safe := safeLog_of_nil rfl rfl
  pending := rfl
  bounded := Nat.zero_le _
  presync _ := ⟨rfl, rfl, fun _ _ =>
    ⟨rfl, by simp [Session.start, start, presynced], fun _ => rfl, rfl⟩⟩
  redownload h := nomatch h

/-- A session that has ended. -/
theorem SafeLog.final (h : SafeLog P params log) : SessionInv P params ⟨t.finalize, log⟩ where
  safe := h
  pending := rfl
  bounded := Nat.zero_le _
  presync h := nomatch h
  redownload h := nomatch h

variable {after : HeadersSyncState}

/-- A call that fails keeps the log safe. -/
theorem SessionInv.failed (h : SessionInv P params s) {headers : List CBlockHeader} :
    SafeLog P params (s.log ++ [⟨s.sync, headers, ⟨[], false, false⟩, after⟩]) := by
  by_cases hstate : s.sync.downloadState = .presync
  · obtain ⟨hrd, hrl, -⟩ := h.presync hstate
    refine safeLog_of_nil ?_ ?_
    · rw [redownloaded_concat, hrd]
      simp
    · rw [released_concat, hrl]
      rfl
  · exact h.safe.idle rfl hstate rfl

section

variable (h : SessionInv P params s)

include h

/-- A message in the second phase that is taken. -/
theorem SessionInv.taken {headers : List CBlockHeader} {more : Bool}
    {s'' : HeadersSyncState} (hstate : s.sync.downloadState = .redownload)
    (hloop : s.sync.redownloadHeaders P params headers = (true, s'))
    (hpop : s'.popHeadersReadyForAcceptance P params = (ready, s'')) :
    let log := s.log ++ [⟨s.sync, headers, ⟨ready, true, more⟩, after⟩]
    Buffered P params (storedCommitments log) (redownloaded log) (released log) s'' ∧
      (released log ≠ [] → s''.processAllRemainingHeaders = false →
        (released log).length + params.redownloadBufferSize ≤ (redownloaded log).length) ∧
      (0 ≤ params.chainStartHeight → params.chainStartHeight + (presynced log).length < 2 ^ 31 →
        storedCommitments log = commitmentsFrom P params (params.chainStartHeight + 1)
          (presynced log)) ∧
      (s''.processAllRemainingHeaders → s''.redownloadedHeaders = []) := by
  intro log
  obtain ⟨hbuffered, hspaced, haligned⟩ := h.redownload hstate
  have hrd : redownloaded log = redownloaded s.log ++ headers := by
    rw [redownloaded_concat, if_pos ⟨hstate, rfl⟩]
  have hrl : released log = released s.log ++ ready := released_concat
  have hne : s.sync.downloadState ≠ .presync := by
    rw [hstate]
    nofun
  have hps : presynced log = presynced s.log := by
    rw [presynced_concat, if_neg fun hpresync => hne hpresync.1, append_nil]
  have hstored : storedCommitments log = storedCommitments s.log := by
    rw [storedCommitments_concat, if_neg hne]
  obtain ⟨hpopped, hall, hcomplete, hkept⟩ := (hbuffered.headers hloop).pop hpop
  obtain ⟨buf, hsplit, hbuf⟩ := hpopped.buffer
  rw [hrd, hrl, hps, hstored]
  refine ⟨hpopped, fun hreleased hpending => ?_, haligned, fun htrue => ?_⟩
  · -- either the buffer is full, or nothing has been released by this call
    have hlength := hkept (hall ▸ hpending)
    obtain ⟨buf', hsplit', hbuf'⟩ := (hbuffered.headers hloop).buffer
    have hsum := congrArg length hsplit
    have hsum' := congrArg length hsplit'
    rw [hbuf, hbuf', length_map, length_map] at hlength
    rw [length_append, length_append, length_append] at hsum
    rw [length_append, length_append] at hsum'
    rw [length_append, length_append]
    by_cases hready : ready = []
    · subst hready
      rw [append_nil] at hreleased
      have := hspaced hreleased
      omega
    · have := length_pos_of_ne_nil hready
      omega
  · have hempty : buf = [] := by
      have := (hcomplete (hall ▸ htrue)).symm.trans hsplit
      exact self_eq_append_right.mp this
    rw [hbuf, hempty]
    rfl

/-- The log after a message in the first phase, whether it is taken or not. -/
theorem SessionInv.stillEmpty (hstate : s.sync.downloadState = .presync)
    {headers : List CBlockHeader} {success more : Bool} :
    redownloaded (s.log ++ [⟨s.sync, headers, ⟨[], success, more⟩, after⟩]) = [] ∧
      released (s.log ++ [⟨s.sync, headers, ⟨[], success, more⟩, after⟩]) = [] := by
  obtain ⟨hrd, hrl, -⟩ := h.presync hstate
  have hne : s.sync.downloadState ≠ .redownload := by
    rw [hstate]
    nofun
  constructor
  · rw [redownloaded_concat, hrd, if_neg fun hredownload => hne hredownload.1]
    rfl
  · rw [released_concat, hrl]
    rfl

/-- A call that does nothing at all. -/
theorem SessionInv.idle {headers : List CBlockHeader} :
    SessionInv P params ⟨s.sync, s.log ++ [⟨s.sync, headers, ⟨[], false, false⟩, s.sync⟩]⟩ := by
  obtain ⟨hrl, hrd, hps⟩ :=
    concat_failed s.log (e := ⟨s.sync, headers, ⟨[], false, false⟩, s.sync⟩) rfl rfl
  refine ⟨h.failed, h.pending, h.bounded, fun hstate => ?_, fun hstate => ?_⟩
  · rw [hrl, hrd, hps]
    exact h.presync hstate
  · have hne : s.sync.downloadState ≠ .presync := fun hpresync => nomatch hpresync.symm.trans hstate
    rw [hrl, hrd, hps, storedCommitments_concat, if_neg hne]
    exact h.redownload hstate

/-- A message in the first phase that is taken, without enough work yet. -/
theorem SessionInv.committed {headers : List CBlockHeader}
    (hstate : s.sync.downloadState = .presync)
    (hloop : s.sync.processHeaders P params headers = (true, s')) :
    SessionInv P params ⟨s', s.log ++ [⟨s.sync, headers, ⟨[], true, true⟩, s'⟩]⟩ := by
  obtain ⟨hrd, hrl⟩ := h.stillEmpty hstate
  obtain ⟨hframe, hpending⟩ := processHeaders_frame P params headers s.sync
  have hbounded := (length_commitments_headers (P := P) headers h.bounded).2
  rw [hloop] at hframe hpending hbounded
  refine ⟨safeLog_of_nil hrd hrl, hpending.trans h.pending, hbounded rfl, fun _ =>
    ⟨hrd, hrl, ?_⟩, ?_⟩
  · rw [presynced_concat, if_pos ⟨hstate, rfl⟩]
    intro hstart hheight
    have hbefore : params.chainStartHeight + (presynced s.log).length < 2 ^ 31 := by
      rw [length_append] at hheight
      omega
    exact ((h.presync hstate).2.2 hstart hbefore).headers hstart hheight hloop
  · intro hredownload
    cases (hframe.trans hstate).symm.trans hredownload

/-- A message in the first phase with which there is enough work. -/
theorem SessionInv.switched {headers : List CBlockHeader}
    (hstate : s.sync.downloadState = .presync)
    (hloop : s.sync.processHeaders P params headers = (true, s'))
    (henough : params.minimumRequiredWork ≤ s'.currentChainWork) :
    SessionInv P params ⟨s'.maybeRedownload P params,
      s.log ++ [⟨s.sync, headers, ⟨[], true, true⟩, s'.maybeRedownload P params⟩]⟩ := by
  obtain ⟨hrd, hrl⟩ := h.stillEmpty hstate
  obtain ⟨-, hpending⟩ := processHeaders_frame P params headers s.sync
  have hbounded := (length_commitments_headers (P := P) headers h.bounded).2
  rw [hloop] at hpending hbounded
  rw [maybeRedownload, if_pos henough]
  refine ⟨safeLog_of_nil hrd hrl, hpending.trans h.pending, hbounded rfl, nofun,
    fun _ => ⟨?_, ?_, ?_⟩⟩
  · rw [hrd, hrl, storedCommitments_concat, if_pos hstate]
    exact ⟨rfl, ⟨[], rfl, rfl⟩, trivial, rfl, rfl,
      by simp, le_rfl, fun _ => rfl, fun hne => absurd rfl hne,
      fun hall => absurd (hall.symm.trans (hpending.trans h.pending)) (by decide), fun _ => rfl⟩
  · exact fun hne => absurd hrl hne
  · rw [storedCommitments_concat, presynced_concat, if_pos hstate, if_pos ⟨hstate, rfl⟩]
    intro hstart hheight
    have hbefore : params.chainStartHeight + (presynced s.log).length < 2 ^ 31 := by
      rw [length_append] at hheight
      omega
    exact (((h.presync hstate).2.2 hstart hbefore).headers hstart hheight hloop).commitments

/-- One more message. -/
theorem SessionInv.step (message : List CBlockHeader × Bool) : SessionInv P params
    (s.step P params message) := by
  obtain ⟨headers, full⟩ := message
  have hcase := processNextHeaders_case P params headers full s.sync
  unfold Session.step
  generalize s.sync.processNextHeaders P params headers full = r at hcase ⊢
  cases hcase with
  | idle => exact h.idle
  | aborted => exact h.failed.final
  | ended _ hstate _ =>
    obtain ⟨hrd, hrl⟩ := h.stillEmpty hstate
    exact (safeLog_of_nil hrd hrl).final
  | committed s' hstate hloop _ => exact h.committed hstate hloop
  | switched s' hstate hloop henough => exact h.switched hstate hloop henough
  | redownloaded s' s'' ready hstate hloop hpop hmore =>
    obtain ⟨hbuffered, hspaced, haligned, hempty⟩ := h.taken hstate hloop hpop
    have hpending := Bool.eq_false_iff.mpr fun hall => hmore ⟨hempty hall, hall⟩
    have hlength := length_commitments_redownloads P params headers s.sync
    have hcommitments : s''.headerCommitments = s'.headerCommitments := by
      rw [← (Prod.mk.inj hpop).2]
    rw [hloop] at hlength
    refine ⟨hbuffered.safeLog hspaced haligned, hpending, ?_, fun hpresync => ?_,
      fun _ => ⟨hbuffered, fun hne => hspaced hne hpending, haligned⟩⟩
    · exact (hcommitments ▸ hlength).trans h.bounded
    · cases hbuffered.state.symm.trans hpresync
  | completed s' s'' ready hstate hloop hpop _ =>
    obtain ⟨hbuffered, hspaced, haligned, -⟩ := h.taken hstate hloop hpop
    exact (hbuffered.safeLog hspaced haligned).final

end

/-- Every session from the start. -/
theorem sessionInv_run (messages : List (List CBlockHeader × Bool)) :
    SessionInv P params (run (Session.step P params) (.start params) messages) :=
  run_invariant (C := fun _ _ => True) (fun _ message h _ => h.step message) sessionInv_start
    (meets_of_forall fun _ _ _ => trivial)

end Sessions

end Tessera.Net
