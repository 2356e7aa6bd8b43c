import Tessera.Coins.Cache

/-!
# A stack of coins caches is a plain map

What a view shows is a map from outpoints to unspent coins. Every cache of a stack shows one, and
the operations on the caches are updates of these maps, as long as a cache is changed only while the
caches above it are empty: a cache does not learn of a change below it.
-/

namespace Tessera.Coins

open Function Lib Script Tx List Option CCoinsViewCache

/-- What a view shows. -/
abbrev CoinMap := COutPoint → Option Coin

/-! ### The list of flagged entries -/

/-- A map of coins holds unspent coins only. -/
def Unspent (M : CoinMap) : Prop := ∀ o coin, M o = some coin → coin.isSpent = false

/-- What holds of a cache over a view: a clean entry is what the view below shows, a fresh one is of
a coin that the view below does not show, and the flagged entries are those in the list. -/
structure CacheOk (M : CoinMap) (c : CCoinsViewCache) : Prop where
  clean : ∀ o e, c.cacheCoins o = some e → e.dirty = false →
    e.fresh = false ∧ e.coin.isSpent = false ∧ M o = some e.coin
  fresh : ∀ o e, c.cacheCoins o = some e → e.fresh = true → M o = none
  spent : ∀ o e, c.cacheCoins o = some e → e.coin.isSpent = true → e.coin = .null
  flagged : ∀ o, o ∈ c.flagged ↔ ∃ e, c.cacheCoins o = some e ∧ e.flagged = true
  nodup : c.flagged.Nodup

/-- What a cache over a view shows. -/
def «over» (M : CoinMap) (c : CCoinsViewCache) : CoinMap := fun o =>
  match c.cacheCoins o with
  | some e => e.coin.unspent?
  | none => M o

variable {M : CoinMap} {c : CCoinsViewCache} {o : COutPoint}

theorem over_of_none (h : c.cacheCoins o = none) : «over» M c o = M o := by
  simp [«over», h]

variable {e : CCoinsCacheEntry} {k : Nat}

theorem over_of_some (h : c.cacheCoins o = some e) : «over» M c o = e.coin.unspent? := by
  simp [«over», h]

private theorem over_unspent (h : Unspent M) : Unspent («over» M c) := by
  intro o coin hcoin
  cases hentry : c.cacheCoins o with
  | none =>
    rw [over_of_none hentry] at hcoin
    exact h o coin hcoin
  | some e =>
    rw [over_of_some hentry, Coin.unspent?] at hcoin
    split at hcoin
    · cases hcoin
    next hspent =>
      cases hcoin
      simpa using hspent

/-! ### Setting and erasing entries -/

@[simp] theorem setEntry_cacheCoins (e : CCoinsCacheEntry) :
    (c.setEntry o e).cacheCoins = update c.cacheCoins o (some e) := rfl

@[simp] theorem eraseEntry_cacheCoins : (c.eraseEntry o).cacheCoins = update c.cacheCoins o none :=
  rfl

private theorem setEntry_cases {o' : COutPoint} {e' : CCoinsCacheEntry}
    (h : (c.setEntry o e).cacheCoins o' = some e') :
    o' = o ∧ e' = e ∨ o' ≠ o ∧ c.cacheCoins o' = some e' := by
  rw [setEntry_cacheCoins, update_apply] at h
  split at h
  · exact .inl ⟨‹_›, (some.inj h).symm⟩
  · exact .inr ⟨‹_›, h⟩

private theorem eraseEntry_cases {o' : COutPoint} (h : (c.eraseEntry o).cacheCoins o' = some e) :
    o' ≠ o ∧ c.cacheCoins o' = some e := by
  rw [eraseEntry_cacheCoins, update_apply] at h
  split at h
  · cases h
  · exact ⟨‹_›, h⟩

private theorem over_setEntry (e : CCoinsCacheEntry) :
    «over» M (c.setEntry o e) = update («over» M c) o e.coin.unspent? := by
  funext o'
  by_cases ho : o' = o
  · subst ho
    simp [«over»]
  · simp [«over», ho]

private theorem over_eraseEntry : «over» M (c.eraseEntry o) = update («over» M c) o (M o) := by
  funext o'
  by_cases ho : o' = o
  · subst ho
    simp [«over»]
  · simp [«over», ho]

private theorem mem_setEntry_flagged (h : CacheOk M c) (e : CCoinsCacheEntry) (o' : COutPoint) :
    o' ∈ (c.setEntry o e).flagged ↔ ∃ e', (c.setEntry o e).cacheCoins o' = some e' ∧
    e'.flagged := by
  by_cases ho : o' = o
  · subst ho
    by_cases hflag : e.flagged
    · by_cases hmem : o' ∈ c.flagged <;> simp [setEntry, hflag, hmem]
    · simp [setEntry, hflag, Nodup.mem_erase_iff h.nodup]
  · have hmem : o' ∈ (c.setEntry o e).flagged ↔ o' ∈ c.flagged := by
      by_cases hflag : e.flagged
      · by_cases hmem : o ∈ c.flagged <;> simp [setEntry, hflag, hmem, ho]
      · simp [setEntry, hflag, mem_erase_of_ne ho]
    rw [hmem, h.flagged o', setEntry_cacheCoins, update_of_ne ho]

private theorem nodup_setEntry (h : CacheOk M c) (e : CCoinsCacheEntry) :
    (c.setEntry o e).flagged.Nodup := by
  unfold setEntry
  split
  · split
    · exact h.nodup
    next hmem =>
      rw [← concat_eq_append]
      exact h.nodup.concat hmem
  · exact h.nodup.erase o

/-- An entry may be set to what its flags promise. -/
theorem CacheOk.setEntry (h : CacheOk M c)
    (hclean : e.dirty = false → e.fresh = false ∧ e.coin.isSpent = false ∧ M o = some e.coin)
    (hfresh : e.fresh → M o = none) (hspent : e.coin.isSpent → e.coin = .null) :
    CacheOk M (c.setEntry o e) := by
  refine ⟨fun o' e' he' => ?_, fun o' e' he' => ?_, fun o' e' he' => ?_,
    mem_setEntry_flagged h e, nodup_setEntry h e⟩
  · obtain ⟨rfl, rfl⟩ | ⟨-, he'⟩ := setEntry_cases he'
    · exact hclean
    · exact h.clean o' e' he'
  · obtain ⟨rfl, rfl⟩ | ⟨-, he'⟩ := setEntry_cases he'
    · exact hfresh
    · exact h.fresh o' e' he'
  · obtain ⟨rfl, rfl⟩ | ⟨-, he'⟩ := setEntry_cases he'
    · exact hspent
    · exact h.spent o' e' he'

/-- Any entry may be erased. -/
theorem CacheOk.eraseEntry (h : CacheOk M c) (o : COutPoint) : CacheOk M (c.eraseEntry o) := by
  refine ⟨fun o' e' he' => h.clean o' e' (eraseEntry_cases he').2,
    fun o' e' he' => h.fresh o' e' (eraseEntry_cases he').2,
    fun o' e' he' => h.spent o' e' (eraseEntry_cases he').2, fun o' => ?_, h.nodup.erase o⟩
  by_cases ho : o' = o
  · subst ho
    simp [CCoinsViewCache.eraseEntry, Nodup.mem_erase_iff h.nodup]
  · have hmem : o' ∈ (c.eraseEntry o).flagged ↔ o' ∈ c.flagged := mem_erase_of_ne ho
    rw [hmem, h.flagged o', eraseEntry_cacheCoins, update_of_ne ho]

/-! ### Stacks -/

variable {base : CCoinsView} {below layers : List CCoinsViewCache}

theorem peekCoin_cons : peekCoin base (c :: below) = «over» (peekCoin base below) c := rfl

/-- Every cache of a stack is all right over what is below it, and the base holds unspent coins. -/
def StackOk (base : CCoinsView) : List CCoinsViewCache → Prop
  | [] => Unspent base.coins
  | c :: below => CacheOk (peekCoin base below) c ∧ StackOk base below

/-- What the caches of a stack show, the top first and the base last. -/
def maps (base : CCoinsView) : List CCoinsViewCache → List CoinMap
  | [] => [base.coins]
  | c :: below => peekCoin base (c :: below) :: maps base below

private theorem maps_eq_cons (base : CCoinsView) (layers : List CCoinsViewCache) :
    ∃ rest, maps base layers = peekCoin base layers :: rest := by
  cases layers with
  | nil => exact ⟨[], rfl⟩
  | cons c below => exact ⟨maps base below, rfl⟩

private theorem peekCoin_eq_of_maps {base' : CCoinsView} {layers' : List CCoinsViewCache}
    (h : maps base' layers' = maps base layers) : peekCoin base' layers' =
      peekCoin base layers := by
  obtain ⟨rest, hrest⟩ := maps_eq_cons base layers
  obtain ⟨rest', hrest'⟩ := maps_eq_cons base' layers'
  rw [hrest, hrest'] at h
  exact (cons.inj h).1

theorem peekCoin_of_maps {rest : List CoinMap} (h : maps base layers = M :: rest) :
    peekCoin base layers = M := by
  obtain ⟨_, hrest⟩ := maps_eq_cons base layers
  exact (cons.inj (hrest.symm.trans h)).1

theorem StackOk.unspent (h : StackOk base layers) : Unspent (peekCoin base layers) := by
  induction layers with
  | nil => exact h
  | cons c below ih => exact over_unspent (ih h.2)

/-! ### Lookups -/

variable (base) in
/-- A lookup returns what the stack shows, and changes nothing that it shows. -/
private def Looks (o : COutPoint) (layers : List CCoinsViewCache) : Prop :=
  (getCoin base o layers).1 = peekCoin base layers o ∧ StackOk base (getCoin base o layers).2 ∧
    maps base (getCoin base o layers).2 = maps base layers

variable (base) in
/-- What fetching an entry does to a stack: it is at the top afterwards if there is a coin, and the
stack shows what it did. -/
private def Fetches (o : COutPoint) (c : CCoinsViewCache) (below : List CCoinsViewCache) : Prop :=
  ((fetchCoin base o (c :: below)).1.bind fun e => e.coin.unspent?) = peekCoin base (c :: below) o ∧
    ∃ c' below', (fetchCoin base o (c :: below)).2 = c' :: below' ∧
      (fetchCoin base o (c :: below)).1 = c'.cacheCoins o ∧ StackOk base (c' :: below') ∧
      maps base (c' :: below') = maps base (c :: below)

private theorem fetchCoin_of_looks (h : StackOk base (c :: below)) (hlooks : Looks base o below) :
    Fetches base o c below := by
  obtain ⟨hlookup, hok, hmaps⟩ := hlooks
  have hpeek := peekCoin_eq_of_maps hmaps
  rw [Fetches, fetchCoin, fetch, hlookup, peekCoin_cons]
  cases hentry : c.cacheCoins o with
  | some e => exact ⟨(over_of_some hentry).symm, c, below, rfl, hentry.symm, h, rfl⟩
  | none =>
    rw [over_of_none hentry]
    cases hcoin : peekCoin base below o with
    | none =>
      refine ⟨rfl, c, _, rfl, hentry.symm, ⟨?_, hok⟩, ?_⟩
      · rw [hpeek]
        exact h.1
      · rw [maps, maps, peekCoin_cons, peekCoin_cons, hpeek, hmaps]
    | some coin =>
      have hspent := h.2.unspent o coin hcoin
      have hunspent? := Coin.unspent?_eq_some hspent
      refine ⟨hunspent?, c.setEntry o ⟨coin, false, false⟩, _, rfl, ?_, ⟨?_, hok⟩, ?_⟩
      · rw [setEntry_cacheCoins, update_self]
      · rw [hpeek]
        refine h.1.setEntry (fun _ => ⟨rfl, hspent, hcoin⟩) (fun hfresh => by cases hfresh)
          fun hnull => ?_
        cases hspent.symm.trans hnull
      · rw [maps, maps, peekCoin_cons, peekCoin_cons, hpeek, hmaps, over_setEntry,
          hunspent?, ← hcoin, ← over_of_none (M := peekCoin base below) hentry, update_eq_self]

private theorem getCoin_spec (h : StackOk base layers) (o : COutPoint) : Looks base o layers := by
  induction layers with
  | nil => exact ⟨rfl, h, rfl⟩
  | cons c below ih =>
    obtain ⟨hlookup, c', below', hlayers, -, hok, hmaps⟩ := fetchCoin_of_looks h (ih h.2)
    have hsame : (getCoin base o (c :: below)).2 = c' :: below' := hlayers
    refine ⟨hlookup, ?_⟩
    rw [hsame]
    exact ⟨hok, hmaps⟩

section

variable (h : StackOk base (c :: below))

include h

/-- What `FetchCoin` leaves at the top of a stack. -/
theorem fetchCoin_spec (o : COutPoint) : Fetches base o c below :=
  fetchCoin_of_looks h (getCoin_spec h.2 o)

theorem haveCoin_spec (o : COutPoint) :
    (haveCoin base o (c :: below)).1 = (peekCoin base (c :: below) o).isSome := by
  obtain ⟨hlookup, -⟩ := fetchCoin_spec h o
  rw [← hlookup, haveCoin]
  cases (fetchCoin base o (c :: below)).1 with
  | none => rfl
  | some e => cases hspent : e.coin.isSpent <;> simp [Coin.unspent?, hspent]

/-- An entry that was fetched is of a coin that is shown, or of the null coin. -/
theorem accessCoin_spec (o : COutPoint) :
    (accessCoin base o (c :: below)).1 = (peekCoin base (c :: below) o).getD .null := by
  obtain ⟨hlookup, c', below', -, hentry, hok, -⟩ := fetchCoin_spec h o
  rw [← hlookup, accessCoin]
  cases hfetch : (fetchCoin base o (c :: below)).1 with
  | none => rfl
  | some e =>
    rw [hfetch] at hentry
    cases hspent : e.coin.isSpent with
    | false => simp [Coin.unspent?, hspent]
    | true => simp [hok.1.spent o e hentry.symm hspent]

/-! ### Changes of one coin -/

/-- Spending a coin takes it out of what the stack shows, and moves it out. -/
theorem spendCoin_spec (o : COutPoint) :
    (spendCoin base o (c :: below)).1.2.unspent? = peekCoin base (c :: below) o ∧
      StackOk base (spendCoin base o (c :: below)).2 ∧
      maps base (spendCoin base o (c :: below)).2 =
        update (peekCoin base (c :: below)) o none :: maps base below := by
  obtain ⟨hlookup, c', below', hlayers, hentry, hok, hmaps⟩ := fetchCoin_spec h o
  have htop := peekCoin_eq_of_maps hmaps
  obtain ⟨-, hrest⟩ := cons.inj hmaps
  unfold spendCoin
  cases hfetched : fetchCoin base o (c :: below) with
  | mk found layers' =>
    rw [hfetched] at hlookup hlayers hentry
    subst hlayers
    cases found with
    | none =>
      have hnone : peekCoin base (c :: below) o = none := hlookup.symm
      refine ⟨hnone.symm, hok, ?_⟩
      rw [← hnone, update_eq_self, hmaps]
      rfl
    | some e =>
      refine ⟨hlookup, ?_⟩
      dsimp only
      split
      next hfresh =>
        refine ⟨⟨hok.1.eraseEntry o, hok.2⟩, ?_⟩
        rw [maps, hrest, peekCoin_cons, over_eraseEntry, hok.1.fresh o e hentry.symm hfresh,
          ← peekCoin_cons, htop]
      next hfresh =>
        refine ⟨⟨hok.1.setEntry (fun hdirty => by cases hdirty) (fun hf => by cases hf)
          (fun _ => rfl), hok.2⟩, ?_⟩
        rw [maps, hrest, peekCoin_cons, over_setEntry, ← peekCoin_cons, htop]
        rfl

end

/-- Adding a coin that is not there, or may be overwritten, puts it into what the cache shows,
unless it cannot be spent. -/
theorem addCoin_spec (h : CacheOk M c) {coin : Coin} {possibleOverwrite : Bool}
    (hcoin : coin.isSpent = false) (hcontract : possibleOverwrite = false → «over» M c o = none) :
    ∃ c', c.addCoin o coin possibleOverwrite = .ok c' ∧ CacheOk M c' ∧
      «over» M c' = if isUnspendable coin.out.scriptPubKey then «over» M c
        else update («over» M c) o (some coin) := by
  unfold addCoin
  rw [hcoin, if_neg Bool.false_ne_true]
  split
  · exact ⟨c, rfl, h, rfl⟩
  dsimp only
  -- the entry is spent, or may be overwritten
  have hcheck : (!possibleOverwrite && !((c.cacheCoins o).getD .null).coin.isSpent) = false := by
    cases possibleOverwrite with
    | true => rfl
    | false =>
      have hnone := hcontract rfl
      cases hentry : c.cacheCoins o with
      | none => rfl
      | some e =>
        rw [over_of_some hentry] at hnone
        simp [Coin.isSpent_of_unspent? hnone]
  rw [hcheck]
  refine ⟨_, rfl, h.setEntry (fun hdirty => by cases hdirty) ?_ ?_, ?_⟩
  · intro hfresh
    cases hentry : c.cacheCoins o with
    | none =>
      rw [hentry] at hfresh
      cases possibleOverwrite with
      | true => cases hfresh
      | false =>
        rw [← over_of_none (M := M) hentry]
        exact hcontract rfl
    | some e =>
      rw [hentry] at hfresh
      cases hf : e.fresh with
      | true => exact h.fresh o e hentry hf
      | false =>
        -- a clean entry is unspent, and then the coin could not be added
        cases hdirty : e.dirty with
        | true => simp [hf, hdirty] at hfresh
        | false =>
          obtain ⟨-, hspent, -⟩ := h.clean o e hentry hdirty
          cases possibleOverwrite with
          | true => simp [hf] at hfresh
          | false =>
            have hnone := hcontract rfl
            rw [over_of_some hentry, Coin.unspent?_eq_some hspent] at hnone
            cases hnone
  · intro hspent
    rw [hcoin] at hspent
    cases hspent
  · rw [over_setEntry, Coin.unspent?_eq_some hcoin]

private theorem uncache_spec (h : CacheOk M c) (o : COutPoint) :
    CacheOk M (c.uncache o) ∧ «over» M (c.uncache o) = «over» M c := by
  unfold uncache
  cases hentry : c.cacheCoins o with
  | none => exact ⟨h, rfl⟩
  | some e =>
    dsimp only
    split
    · exact ⟨h, rfl⟩
    next hdirty =>
      obtain ⟨-, hspent, hcoin⟩ := h.clean o e hentry (by simpa using hdirty)
      refine ⟨h.eraseEntry o, ?_⟩
      rw [over_eraseEntry, hcoin, ← Coin.unspent?_eq_some hspent, ← over_of_some (M := M) hentry,
        update_eq_self]

/-! ### Writing a cache to the view below -/

/-- The changes that some entries stand for. -/
def applyEntries (N : CoinMap) (entries : List (COutPoint × CCoinsCacheEntry)) : CoinMap :=
  entries.foldl (fun N p => update N p.1 p.2.coin.unspent?) N

variable {entries : List (COutPoint × CCoinsCacheEntry)} {N : CoinMap} {Ms : List CoinMap}

theorem applyEntries_of_not_mem (h : o ∉ entries.map Prod.fst) :
    applyEntries N entries o = N o := by
  induction entries generalizing N with
  | nil => rfl
  | cons p entries ih =>
    rw [map_cons, mem_cons, not_or] at h
    rw [applyEntries, foldl_cons, ← applyEntries, ih h.2, update_of_ne h.1]

theorem applyEntries_of_mem (hnodup : (entries.map Prod.fst).Nodup) (h : (o, e) ∈ entries) :
    applyEntries N entries o = e.coin.unspent? := by
  induction entries generalizing N with
  | nil => exact absurd h not_mem_nil
  | cons p entries ih =>
    rw [map_cons, nodup_cons] at hnodup
    rw [applyEntries, foldl_cons, ← applyEntries]
    obtain rfl | h := mem_cons.mp h
    · rw [applyEntries_of_not_mem hnodup.1, update_self]
    · exact ih hnodup.2 h

theorem CacheOk.cursor_fst (h : CacheOk M c) : c.cursor.map Prod.fst = c.flagged := by
  unfold cursor
  have hall : ∀ o ∈ c.flagged, ∃ e, c.cacheCoins o = some e := fun o ho =>
    ((h.flagged o).mp ho).imp fun e he => he.1
  generalize c.flagged = flagged at hall
  induction flagged with
  | nil => rfl
  | cons o flagged ih =>
    obtain ⟨e, he⟩ := hall o mem_cons_self
    rw [filterMap_cons, he]
    exact congrArg (o :: ·) (ih fun o' ho' => hall o' (mem_cons_of_mem o ho'))

theorem CacheOk.nodup_cursor (h : CacheOk M c) : (c.cursor.map Prod.fst).Nodup := by
  rw [h.cursor_fst]
  exact h.nodup

private theorem mem_cursor_iff : (o, e) ∈ c.cursor ↔ o ∈ c.flagged ∧ c.cacheCoins o = some e := by
  unfold cursor
  rw [mem_filterMap]
  constructor
  · rintro ⟨o', ho', hmap⟩
    obtain ⟨e', he', heq⟩ := map_eq_some_iff.mp hmap
    cases heq
    exact ⟨ho', he'⟩
  · rintro ⟨ho, he⟩
    exact ⟨o, ho, by rw [he]; rfl⟩

/-- An entry of a cursor is dirty: a clean one is not flagged. -/
theorem CacheOk.dirty_of_mem_cursor (h : CacheOk M c) (he : (o, e) ∈ c.cursor) : e.dirty := by
  obtain ⟨hflagged, hentry⟩ := mem_cursor_iff.mp he
  obtain ⟨e', hentry', hflag⟩ := (h.flagged o).mp hflagged
  cases hentry.symm.trans hentry'
  cases hdirty : e.dirty with
  | true => rfl
  | false =>
    obtain ⟨hfresh, -⟩ := h.clean o e hentry hdirty
    simp [CCoinsCacheEntry.flagged, hdirty, hfresh] at hflag

private theorem CacheOk.clean_of_not_flagged (h : CacheOk M c) (he : c.cacheCoins o = some e)
    (hnot : o ∉ c.flagged) :
    e.dirty = false ∧ e.fresh = false ∧ e.coin.isSpent = false ∧ M o = some e.coin := by
  have hdirty : e.dirty = false := by
    refine Bool.eq_false_iff.mpr fun hdirty => hnot ((h.flagged o).mpr ⟨e, he, ?_⟩)
    simp [CCoinsCacheEntry.flagged, hdirty]
  exact ⟨hdirty, h.clean o e he hdirty⟩

/-- The entries of its cursor are all that a cache changes. -/
theorem CacheOk.applyEntries_cursor (h : CacheOk M c) : applyEntries M c.cursor = «over» M c := by
  funext o
  cases hentry : c.cacheCoins o with
  | none =>
    rw [over_of_none hentry]
    refine applyEntries_of_not_mem ?_
    rw [h.cursor_fst, h.flagged o]
    rintro ⟨e, he, -⟩
    rw [hentry] at he
    cases he
  | some e =>
    rw [over_of_some hentry]
    by_cases hflagged : o ∈ c.flagged
    · exact applyEntries_of_mem h.nodup_cursor (mem_cursor_iff.mpr ⟨hflagged, hentry⟩)
    · obtain ⟨-, -, hspent, hcoin⟩ := h.clean_of_not_flagged hentry hflagged
      rw [applyEntries_of_not_mem (by rwa [h.cursor_fst]), hcoin, Coin.unspent?_eq_some hspent]

/-- Merging an entry of the cache above: its FRESH flag is right about what this cache shows. -/
theorem mergeEntry_spec (h : CacheOk M c) (hdirty : e.dirty)
    (hfresh : e.fresh → «over» M c o = none) (hspent : e.coin.isSpent → e.coin = .null) :
    ∃ c', c.mergeEntry o e = .ok c' ∧ CacheOk M c' ∧ «over» M c' = update («over» M c) o
      e.coin.unspent? := by
  unfold mergeEntry
  rw [hdirty, if_neg (by decide)]
  cases hentry : c.cacheCoins o with
  | none =>
    dsimp only
    split
    next hboth =>
      obtain ⟨hf, hs⟩ := Bool.and_eq_true_iff.mp hboth
      refine ⟨c, rfl, h, ?_⟩
      rw [hspent hs, Coin.unspent?_null, ← hfresh hf, update_eq_self]
    · refine ⟨_, rfl, h.setEntry (fun hd => by cases hd) (fun hf => ?_) hspent, over_setEntry _⟩
      rw [← over_of_none (M := M) hentry]
      exact hfresh hf
  | some us =>
    dsimp only
    have hnot : (e.fresh && !us.coin.isSpent) = false := by
      cases hf : e.fresh with
      | false => rfl
      | true =>
        have hnone := hfresh hf
        rw [over_of_some hentry] at hnone
        simp [Coin.isSpent_of_unspent? hnone]
    rw [hnot, if_neg Bool.false_ne_true]
    split
    next hboth =>
      obtain ⟨hf, hs⟩ := Bool.and_eq_true_iff.mp hboth
      refine ⟨_, rfl, h.eraseEntry o, ?_⟩
      rw [over_eraseEntry, h.fresh o us hentry hf, hspent hs, Coin.unspent?_null]
    · exact ⟨_, rfl, h.setEntry (fun hd => by cases hd) (h.fresh o us hentry) hspent,
        over_setEntry _⟩

/-- What the entries of a cursor are, for the view that they are written to. -/
private structure Mergeable (N : CoinMap) (entries : List (COutPoint × CCoinsCacheEntry)) :
    Prop where
  nodup : (entries.map Prod.fst).Nodup
  dirty : ∀ o e, (o, e) ∈ entries → e.dirty = true
  fresh : ∀ o e, (o, e) ∈ entries → e.fresh = true → N o = none
  spent : ∀ o e, (o, e) ∈ entries → e.coin.isSpent = true → e.coin = .null

private theorem CacheOk.mergeable (h : CacheOk M c) : Mergeable M c.cursor where
  nodup := h.nodup_cursor
  dirty _ _ he := h.dirty_of_mem_cursor he
  fresh o e he := h.fresh o e (mem_cursor_iff.mp he).2
  spent o e he := h.spent o e (mem_cursor_iff.mp he).2

private theorem foldlM_mergeEntry (h : CacheOk M c) (hentries : Mergeable («over» M c) entries) :
    ∃ c', entries.foldlM (fun c p => c.mergeEntry p.1 p.2) c = Except.ok c' ∧ CacheOk M c' ∧
      «over» M c' = applyEntries («over» M c) entries := by
  induction entries generalizing c with
  | nil => exact ⟨c, rfl, h, rfl⟩
  | cons p entries ih =>
    obtain ⟨o, e⟩ := p
    have hmem : (o, e) ∈ (o, e) :: entries := mem_cons_self
    obtain ⟨c₁, hmerge, hok, hover⟩ := mergeEntry_spec h (hentries.dirty o e hmem)
      (hentries.fresh o e hmem) (hentries.spent o e hmem)
    have hnodup := hentries.nodup
    rw [map_cons, nodup_cons] at hnodup
    obtain ⟨c', hrest, hok', hover'⟩ := ih hok ⟨hnodup.2,
      fun o' e' he' => hentries.dirty o' e' (mem_cons_of_mem _ he'), fun o' e' he' hf => by
        have hne : o' ≠ o := by
          rintro rfl
          exact hnodup.1 (mem_map.mpr ⟨(o', e'), he', rfl⟩)
        rw [hover, update_of_ne hne]
        exact hentries.fresh o' e' (mem_cons_of_mem _ he') hf,
      fun o' e' he' => hentries.spent o' e' (mem_cons_of_mem _ he')⟩
    refine ⟨c', ?_, hok', ?_⟩
    · rw [foldlM_cons, hmerge]
      exact hrest
    · rw [hover', hover]
      rfl

private theorem batchWrite_coins (h : ∀ p ∈ entries, p.2.dirty) (hash : Uint256) :
    (base.batchWrite entries hash).coins = applyEntries base.coins entries := by
  unfold CCoinsView.batchWrite applyEntries
  generalize base.coins = coins
  induction entries generalizing coins with
  | nil => rfl
  | cons p entries ih =>
    rw [foldl_cons, if_pos (h p mem_cons_self)]
    exact ih (fun p' hp' => h p' (mem_cons_of_mem p hp')) _

/-- Writing a cache to the stack below makes that stack show what the cache shows. -/
theorem batchWriteTo_spec (h : StackOk base (c :: below)) (hash : Uint256) :
    ∃ below' base', batchWriteTo base below c.cursor hash = .ok (below', base') ∧
    StackOk base' below' ∧
      maps base' below' = peekCoin base (c :: below) :: (maps base below).tail := by
  have hcursor := h.1.applyEntries_cursor
  cases below with
  | nil =>
    have hcoins : (base.batchWrite c.cursor hash).coins = peekCoin base [c] := by
      rw [batchWrite_coins fun p hp => h.1.dirty_of_mem_cursor hp]
      exact hcursor
    refine ⟨[], base.batchWrite c.cursor hash, rfl, ?_, ?_⟩
    · rw [StackOk, hcoins]
      exact h.unspent
    · rw [maps, hcoins]
      rfl
  | cons parent below =>
    obtain ⟨parent', hmerge, hok, hover⟩ := foldlM_mergeEntry h.2.1 h.1.mergeable
    refine ⟨{ parent' with hashBlock := hash } :: below, base, ?_, ⟨?_, h.2.2⟩, ?_⟩
    · rw [batchWriteTo, batchWrite, hmerge]
      rfl
    · exact { hok with }
    have hshow : peekCoin base ({ parent' with hashBlock := hash } :: below) =
        peekCoin base (c :: parent :: below) := by
      rw [peekCoin_cons (c := c), ← hcursor]
      exact hover
    rw [maps, hshow]
    rfl

/-- A clean entry of what a view shows. -/
private def CleanAt (N : CoinMap) (o : COutPoint) (e : CCoinsCacheEntry) : Prop :=
  e.dirty = false ∧ e.fresh = false ∧ e.coin.isSpent = false ∧ N o = some e.coin

private theorem foldl_clean (hflagged : c.flagged = entries.map Prod.fst) (hnodup : c.flagged.Nodup)
    (hshow : ∀ o e, (o, e) ∈ entries → N o = e.coin.unspent?)
    (hclean : ∀ o e, c.cacheCoins o = some e → o ∉ c.flagged → CleanAt N o e) :
    let cleaned := entries.foldl (fun c p =>
      if p.2.coin.isSpent then c.eraseEntry p.1 else c.setEntry p.1 ⟨p.2.coin, false, false⟩) c
    cleaned.flagged = [] ∧ ∀ o e, cleaned.cacheCoins o = some e → CleanAt N o e := by
  induction entries generalizing c with
  | nil =>
    refine ⟨hflagged, fun o e he => hclean o e he ?_⟩
    rw [hflagged]
    exact not_mem_nil
  | cons p entries ih =>
    obtain ⟨o, e⟩ := p
    have herase : c.flagged.erase o = entries.map Prod.fst := by
      rw [hflagged, map_cons, erase_cons_head]
    have hrest := fun o' e' he' => hshow o' e' (mem_cons_of_mem (o, e) he')
    have hold : ∀ o' e', c.cacheCoins o' = some e' → o' ≠ o → o' ∉ c.flagged.erase o →
        CleanAt N o' e' :=
      fun o' e' he' hne hmem => hclean o' e' he' fun h => hmem ((mem_erase_of_ne hne).mpr h)
    rw [foldl_cons]
    dsimp only
    split
    · refine ih herase (hnodup.erase o) hrest fun o' e' he' hmem => ?_
      obtain ⟨hne, he'⟩ := eraseEntry_cases he'
      exact hold o' e' he' hne hmem
    next hspent =>
      have hspent : e.coin.isSpent = false := by simpa using hspent
      refine ih herase (hnodup.erase o) hrest fun o' e' he' hmem => ?_
      obtain ⟨rfl, rfl⟩ | ⟨hne, he'⟩ := setEntry_cases he'
      · refine ⟨rfl, rfl, hspent, ?_⟩
        rw [hshow o' e mem_cons_self, Coin.unspent?_eq_some hspent]
      · exact hold o' e' he' hne hmem

/-- What is left of a cache that was synced: clean entries of what the view below now shows. -/
theorem clean_spec (h : CacheOk M c) :
    CacheOk («over» M c) c.clean ∧ «over» («over» M c) c.clean = «over» M c ∧
    c.clean.flagged = [] := by
  have hstart : ∀ o e, c.cacheCoins o = some e → o ∉ c.flagged → CleanAt («over» M c) o e := by
    intro o e he hnot
    obtain ⟨hdirty, hfresh, hspent, -⟩ := h.clean_of_not_flagged he hnot
    exact ⟨hdirty, hfresh, hspent, by rw [over_of_some he, Coin.unspent?_eq_some hspent]⟩
  obtain ⟨hflagged, hclean⟩ := foldl_clean (N := «over» M c) h.cursor_fst.symm h.nodup
    (fun o e he => over_of_some (mem_cursor_iff.mp he).2) hstart
  change c.clean.flagged = [] at hflagged
  refine ⟨⟨fun o e he _ => (hclean o e he).2, fun o e he hfresh => ?_, fun o e he hspent => ?_,
    fun o => ?_, ?_⟩, ?_, hflagged⟩
  · cases (hclean o e he).2.1.symm.trans hfresh
  · cases (hclean o e he).2.2.1.symm.trans hspent
  · rw [hflagged]
    refine iff_of_false not_mem_nil ?_
    rintro ⟨e, he, hflag⟩
    obtain ⟨hdirty, hfresh, -⟩ := hclean o e he
    simp [CCoinsCacheEntry.flagged, hdirty, hfresh] at hflag
  · rw [hflagged]
    exact nodup_nil
  · funext o
    cases hentry : c.clean.cacheCoins o with
    | none => exact over_of_none hentry
    | some e =>
      obtain ⟨-, -, hspent, hshow⟩ := hclean o e hentry
      rw [over_of_some hentry, hshow, Coin.unspent?_eq_some hspent]

/-! ### The plain maps -/

/-- The operations that change what a cache shows. -/
def CoinsOp.changes : CoinsOp → Bool
  | addCoin .. | spendCoin _ | reset => true
  | _ => false

/-- An operation on the map of a layer, with the maps below it. -/
def mapTop (op : CoinsOp) (M : CoinMap) (rest : List CoinMap) : List CoinMap :=
  match op with
  | .addCoin o coin _ =>
    (if isUnspendable coin.out.scriptPubKey then M else update M o (some coin)) :: rest
  | .spendCoin o => update M o none :: rest
  | .flush | .sync => M :: M :: rest.tail
  | .reset => rest.headD M :: rest
  | _ => M :: rest

/-- An operation on the map at a depth. The layers above follow a change. -/
def mapAt (op : CoinsOp) : Nat → List CoinMap → List CoinMap
  | _, [] => []
  | 0, M :: rest => mapTop op M rest
  | k + 1, M :: rest =>
    let rest' := mapAt op k rest
    (if op.changes then rest'.headD M else M) :: rest'

/-- What the caller of `AddCoin` promises: the coin is unspent, and none is overwritten unless the
caller says so. -/
def Contract (M : CoinMap) : CoinsOp → Prop
  | .addCoin o coin possibleOverwrite =>
    coin.isSpent = false ∧ (possibleOverwrite = false → M o = none)
  | _ => True

private theorem getBestBlock_spec (h : StackOk base layers) : StackOk base
      (getBestBlock base layers).2 ∧ maps base (getBestBlock base layers).2 = maps base layers := by
  induction layers with
  | nil => exact ⟨h, rfl⟩
  | cons c below ih =>
    unfold getBestBlock
    split
    · obtain ⟨hok, hmaps⟩ := ih h.2
      have hpeek := peekCoin_eq_of_maps hmaps
      refine ⟨⟨?_, hok⟩, ?_⟩
      · rw [hpeek]
        exact { h.1 with }
      · rw [maps, hmaps, peekCoin_cons, hpeek]
        rfl
    · exact ⟨h, rfl⟩

private theorem cacheOk_of_no_entries (hentries : ∀ o, c.cacheCoins o = none)
    (hflagged : c.flagged = []) (M : CoinMap) : CacheOk M c where
  clean o e he := by simp [hentries] at he
  fresh o e he := by simp [hentries] at he
  spent o e he := by simp [hentries] at he
  flagged o := by simp [hflagged, hentries]
  nodup := by simp [hflagged]

private theorem over_of_no_entries (hentries : ∀ o, c.cacheCoins o = none) : «over» M c = M := by
  funext o
  exact over_of_none (hentries o)

variable {op : CoinsOp}

/-- An operation at the top of a stack is the operation on the maps. -/
theorem applyTop_spec (h : StackOk base (c :: below))
    (hcontract : Contract (peekCoin base (c :: below)) op) :
    ∃ layers' base', applyTop base op c below = .ok (layers', base') ∧ StackOk base' layers' ∧
      maps base' layers' = mapTop op (peekCoin base (c :: below)) (maps base below) := by
  have hfetch : ∀ o, StackOk base (fetchCoin base o (c :: below)).2 ∧
      maps base (fetchCoin base o (c :: below)).2 = maps base (c :: below) := by
    intro o
    obtain ⟨-, c', below', hlayers, -, hok, hmaps⟩ := fetchCoin_spec h o
    rw [hlayers]
    exact ⟨hok, hmaps⟩
  cases op with
  | addCoin o coin possibleOverwrite =>
    obtain ⟨c', hadd, hok, hover⟩ := addCoin_spec h.1 hcontract.1 hcontract.2
    refine ⟨c' :: below, base, ?_, ⟨hok, h.2⟩, ?_⟩
    · rw [applyTop, hadd]
      rfl
    · rw [maps, peekCoin_cons, hover]
      rfl
  | spendCoin o =>
    obtain ⟨-, hok, hmaps⟩ := spendCoin_spec h o
    exact ⟨_, base, rfl, hok, hmaps⟩
  | getCoin o =>
    obtain ⟨-, hok, hmaps⟩ := getCoin_spec h o
    exact ⟨_, base, rfl, hok, hmaps⟩
  | haveCoin o => exact ⟨_, base, rfl, hfetch o⟩
  | accessCoin o => exact ⟨_, base, rfl, hfetch o⟩
  | haveCoinInCache o => exact ⟨_, base, rfl, h, rfl⟩
  | uncache o =>
    obtain ⟨hok, hover⟩ := uncache_spec h.1 o
    refine ⟨_, base, rfl, ⟨hok, h.2⟩, ?_⟩
    rw [maps, peekCoin_cons, hover]
    rfl
  | flush =>
    obtain ⟨below', base', hwrite, hok, hmaps⟩ := batchWriteTo_spec h c.hashBlock
    have hshow := peekCoin_of_maps hmaps
    refine ⟨{ c with cacheCoins := fun _ => none, flagged := [] } :: below', base', ?_,
      ⟨?_, hok⟩, ?_⟩
    · rw [applyTop, hwrite]
      rfl
    · exact cacheOk_of_no_entries (fun _ => rfl) rfl _
    · rw [maps, peekCoin_cons, hmaps, hshow]
      rfl
  | sync =>
    obtain ⟨below', base', hwrite, hok, hmaps⟩ := batchWriteTo_spec h c.hashBlock
    have hshow : peekCoin base' below' = «over» (peekCoin base below) c := peekCoin_of_maps hmaps
    obtain ⟨hclean, hover, hflagged⟩ := clean_spec h.1
    refine ⟨c.clean :: below', base', ?_, ⟨?_, hok⟩, ?_⟩
    · rw [applyTop, hwrite]
      change (if c.clean.flagged.isEmpty = true then _ else _) = _
      rw [hflagged]
      rfl
    · rw [hshow]
      exact hclean
    · rw [maps, peekCoin_cons, hshow, hover, hmaps]
      rfl
  | reset =>
    refine ⟨_, base, rfl, ⟨cacheOk_of_no_entries (fun _ => rfl) rfl _, h.2⟩, ?_⟩
    obtain ⟨rest, hrest⟩ := maps_eq_cons base below
    rw [maps, hrest]
    rfl
  | setBestBlock hash =>
    exact ⟨_, base, rfl, ⟨{ h.1 with }, h.2⟩, rfl⟩
  | getBestBlock => exact ⟨_, base, rfl, getBestBlock_spec h⟩

private theorem headD_mapAt (hop : op.changes = false) (k : Nat) (M : CoinMap)
    (rest : List CoinMap) (N : CoinMap) : (mapAt op k (M :: rest)).headD N = M := by
  cases k with
  | zero =>
    cases op with
    | addCoin | spendCoin | reset => cases hop
    | getCoin | haveCoin | accessCoin | haveCoinInCache | uncache | flush | sync | setBestBlock
    | getBestBlock => rfl
  | succ k =>
    rw [mapAt, hop]
    rfl

/-- An operation on a cache of a stack is the operation on the maps, if the caches above the cache
are empty or it does not change what its cache shows. -/
theorem applyAt_spec (h : StackOk base layers) (hk : k < layers.length)
    (habove : op.changes → ∀ c ∈ layers.take k, ∀ o, c.cacheCoins o = none)
    (hcontract : Contract (peekCoin base (layers.drop k)) op) :
    ∃ layers' base', applyAt base op k layers = .ok (layers', base') ∧ StackOk base' layers' ∧
      maps base' layers' = mapAt op k (maps base layers) := by
  induction k generalizing layers with
  | zero =>
    cases layers with
    | nil => cases hk
    | cons c below => exact applyTop_spec h hcontract
  | succ k ih =>
    cases layers with
    | nil => cases hk
    | cons c below =>
      have hbelow : op.changes → ∀ c ∈ below.take k, ∀ o, c.cacheCoins o = none :=
        fun hop c' hc' => habove hop c' (mem_cons_of_mem c hc')
      obtain ⟨below', base', happly, hok, hmaps⟩ :=
        ih h.2 (Nat.lt_of_succ_lt_succ hk) hbelow hcontract
      obtain ⟨rest, hrest⟩ := maps_eq_cons base' below'
      obtain ⟨rest₀, hrest₀⟩ := maps_eq_cons base below
      have hhead : (mapAt op k (maps base below)).headD (peekCoin base (c :: below)) =
          peekCoin base' below' := by
        rw [← hmaps, hrest]
        rfl
      refine ⟨c :: below', base', by rw [applyAt, happly]; rfl, ?_⟩
      rw [maps, maps, mapAt, hhead, hmaps]
      cases hop : op.changes with
      | true =>
        -- the cache is empty, and shows what is below it
        have hempty := habove hop c mem_cons_self
        have hflagged : c.flagged = [] := by
          refine eq_nil_iff_forall_not_mem.mpr fun o ho => ?_
          obtain ⟨e, he, -⟩ := (h.1.flagged o).mp ho
          rw [hempty] at he
          cases he
        refine ⟨⟨cacheOk_of_no_entries hempty hflagged _, hok⟩, ?_⟩
        rw [peekCoin_cons, over_of_no_entries hempty]
        rfl
      | false =>
        have hsame : peekCoin base' below' = peekCoin base below := by
          rw [← hhead, hrest₀]
          exact headD_mapAt hop k _ _ _
        refine ⟨⟨?_, hok⟩, ?_⟩
        · rw [hsame]
          exact h.1
        · rw [peekCoin_cons, hsame]
          rfl

/-! ### Runs -/

private theorem maps_length (base : CCoinsView) (layers : List CCoinsViewCache) :
    (maps base layers).length = layers.length + 1 := by
  induction layers with
  | nil => rfl
  | cons c below ih => rw [maps, length_cons, ih, length_cons]

private theorem maps_getElem? (hk : k ≤ layers.length) :
    (maps base layers)[k]? = some (peekCoin base (layers.drop k)) := by
  induction k generalizing layers with
  | zero =>
    obtain ⟨rest, hrest⟩ := maps_eq_cons base layers
    rw [hrest]
    rfl
  | succ k ih =>
    cases layers with
    | nil => cases hk
    | cons c below => exact ih (Nat.le_of_succ_le_succ hk)

/-- The maps after an operation. -/
def mapStep (Ms : List CoinMap) (i : Nat × CoinsOp) : List CoinMap := mapAt i.2 i.1 Ms

private theorem mapAt_length (hk : k + 1 < Ms.length) : (mapAt op k Ms).length = Ms.length := by
  induction k generalizing Ms with
  | zero =>
    match Ms, hk with
    | M :: N :: rest, _ => cases op <;> rfl
  | succ k ih =>
    cases Ms with
    | nil => cases hk
    | cons M rest =>
      rw [mapAt, length_cons, length_cons, ih (Nat.lt_of_succ_lt_succ hk)]

/-- Flushing or syncing a layer copies its map to the layer below. -/
theorem mapAt_flush_getElem? (hop : op = .flush ∨ op = .sync) (hk : k + 1 < Ms.length) (j : Nat) :
    (mapAt op k Ms)[j]? = if j = k + 1 then Ms[k]? else Ms[j]? := by
  have hchanges : op.changes = false := by obtain rfl | rfl := hop <;> rfl
  induction k generalizing Ms j with
  | zero =>
    match Ms, hk with
    | M :: N :: rest, _ =>
      have htop : mapAt op 0 (M :: N :: rest) = M :: M :: rest := by
        obtain rfl | rfl := hop <;> rfl
      rw [htop]
      match j with
      | 0 => rfl
      | 1 => rfl
      | j + 2 => simp
  | succ k ih =>
    cases Ms with
    | nil => cases hk
    | cons M rest =>
      rw [mapAt, hchanges]
      cases j with
      | zero => simp
      | succ j => simpa using ih (Nat.lt_of_succ_lt_succ hk) j

namespace CoinsStack

/-- A stack of caches without entries. -/
def new (n : Nat) (base : CCoinsView) : CoinsStack := ⟨List.replicate n .empty, base⟩

/-- The operation is on a cache of the stack, the caller keeps the promise of `AddCoin`, and a cache
is changed only while the caches above it are empty. -/
def Proper (v : Except String CoinsStack) (i : Nat × CoinsOp) : Prop :=
  ∀ s, v = .ok s → i.1 < s.layers.length ∧
    (i.2.changes = true → ∀ c ∈ s.layers.take i.1, ∀ o, c.cacheCoins o = none) ∧
    Contract (peekCoin s.base (s.layers.drop i.1)) i.2

/-- The lookups in the caches of a stack return what some maps hold, and the last map is the base. A
coin that is in a cache is in its map. -/
structure Shows (s : CoinsStack) (Ms : List CoinMap) : Prop where
  getCoin : ∀ k < s.layers.length, ∀ M, Ms[k]? = some M → ∀ o,
    (getCoin s.base o (s.layers.drop k)).1 = M o
  haveCoin : ∀ k < s.layers.length, ∀ M, Ms[k]? = some M → ∀ o,
    (haveCoin s.base o (s.layers.drop k)).1 = (M o).isSome
  accessCoin : ∀ k < s.layers.length, ∀ M, Ms[k]? = some M → ∀ o,
    (accessCoin s.base o (s.layers.drop k)).1 = (M o).getD .null
  spendCoin : ∀ k < s.layers.length, ∀ M, Ms[k]? = some M → ∀ o,
    (spendCoin s.base o (s.layers.drop k)).1.2.unspent? = M o
  haveCoinInCache : ∀ (k : Nat) (c : CCoinsViewCache), s.layers[k]? = some c →
    ∀ (M : CoinMap), Ms[k]? = some M → ∀ o,
    c.haveCoinInCache o = true → (M o).isSome = true
  base : Ms[s.layers.length]? = some s.base.coins

/-- Flushing or syncing all caches, the top first. -/
def all (op : CoinsOp) (n : Nat) : List (Nat × CoinsOp) := (List.range n).map fun k => (k, op)

private theorem stackOk_replicate (hbase : Unspent base.coins) (n : Nat) : StackOk base
      (List.replicate n .empty) ∧
      maps base (List.replicate n .empty) = List.replicate (n + 1) base.coins := by
  induction n with
  | zero => exact ⟨hbase, rfl⟩
  | succ n ih =>
    have hpeek := peekCoin_of_maps ih.2
    refine ⟨⟨cacheOk_of_no_entries (fun _ => rfl) rfl _, ih.1⟩, ?_⟩
    rw [replicate_succ, maps, ih.2, peekCoin_cons, hpeek]
    rfl

variable {s : CoinsStack}

private theorem shows_maps (h : StackOk s.base s.layers) : s.Shows (maps s.base s.layers) := by
  have hdrop : ∀ k, StackOk s.base (s.layers.drop k) := by
    intro k
    generalize s.layers = layers at h
    induction k generalizing layers with
    | zero => exact h
    | succ k ih =>
      cases layers with
      | nil => exact h
      | cons c below => exact ih _ h.2
  have hcons : ∀ k (hk : k < s.layers.length) M, (maps s.base s.layers)[k]? = some M →
      ∃ below, s.layers.drop k = s.layers[k] :: below ∧ StackOk s.base (s.layers[k] :: below) ∧
        M = peekCoin s.base (s.layers[k] :: below) := by
    intro k hk M hM
    have hlayers := drop_eq_getElem_cons hk
    rw [maps_getElem? (le_of_lt hk), hlayers] at hM
    exact ⟨_, hlayers, hlayers ▸ hdrop k, (some.inj hM).symm⟩
  refine ⟨fun k hk M hM o => ?_, fun k hk M hM o => ?_, fun k hk M hM o => ?_,
    fun k hk M hM o => ?_, fun k c hc M hM o hhave => ?_, ?_⟩
  · obtain ⟨below, hlayers, hok, rfl⟩ := hcons k hk M hM
    exact hlayers ▸ (getCoin_spec hok o).1
  · obtain ⟨below, hlayers, hok, rfl⟩ := hcons k hk M hM
    exact hlayers ▸ haveCoin_spec hok o
  · obtain ⟨below, hlayers, hok, rfl⟩ := hcons k hk M hM
    exact hlayers ▸ accessCoin_spec hok o
  · obtain ⟨below, hlayers, hok, rfl⟩ := hcons k hk M hM
    exact hlayers ▸ (spendCoin_spec hok o).1
  · obtain ⟨hk, rfl⟩ := List.getElem?_eq_some_iff.mp hc
    obtain ⟨below, hlayers, hok, rfl⟩ := hcons k hk M hM
    rw [peekCoin_cons]
    unfold haveCoinInCache at hhave
    cases hentry : s.layers[k].cacheCoins o with
    | none =>
      rw [hentry] at hhave
      cases hhave
    | some e =>
      rw [hentry] at hhave
      rw [over_of_some hentry, Coin.unspent?_eq_some (by simpa using hhave)]
      rfl
  · rw [maps_getElem? (le_refl _), drop_length]
    rfl

private theorem step_spec (h : StackOk s.base s.layers) {i : Nat × CoinsOp}
    (hproper : Proper (.ok s) i) : ∃ s', step (.ok s) i = .ok s' ∧ StackOk s'.base s'.layers ∧
      maps s'.base s'.layers = mapStep (maps s.base s.layers) i ∧
      s'.layers.length = s.layers.length := by
  obtain ⟨hk, habove, hcontract⟩ := hproper s rfl
  obtain ⟨layers', base', happly, hok, hmaps⟩ := applyAt_spec h hk habove hcontract
  refine ⟨⟨layers', base'⟩, ?_, hok, hmaps, ?_⟩
  · change (applyAt s.base i.2 i.1 s.layers).bind _ = _
    rw [happly]
    rfl
  · have hlength := congrArg length hmaps
    rw [mapAt_length (by rw [maps_length]; exact Nat.succ_lt_succ hk), maps_length,
      maps_length] at hlength
    exact Nat.succ.inj hlength

variable {ops : List (Nat × CoinsOp)}

private theorem run_spec (h : StackOk s.base s.layers) (hops : Meets step Proper (.ok s) ops) :
    ∃ s', run step (.ok s) ops = .ok s' ∧ StackOk s'.base s'.layers ∧
      maps s'.base s'.layers = run mapStep (maps s.base s.layers) ops ∧
      s'.layers.length = s.layers.length := by
  induction ops generalizing s with
  | nil => exact ⟨s, rfl, h, rfl, rfl⟩
  | cons i ops ih =>
    obtain ⟨s₁, hstep, hok, hmaps, hlength⟩ := step_spec h hops.1
    have hrest := hops.2
    rw [hstep] at hrest
    obtain ⟨s', hrun, hok', hmaps', hlength'⟩ := ih hok hrest
    refine ⟨s', by rw [run_cons, hstep, hrun], hok', ?_, hlength'.trans hlength⟩
    rw [hmaps', hmaps, run_cons]

private theorem meets_flushes (h : StackOk s.base s.layers)
    (hops : ∀ i ∈ ops, i.1 < s.layers.length ∧ (i.2 = .flush ∨ i.2 = .sync)) : Meets step Proper
      (.ok s) ops := by
  induction ops generalizing s with
  | nil => trivial
  | cons i ops ih =>
    obtain ⟨hk, hop⟩ := hops i mem_cons_self
    have hproper : Proper (.ok s) i := by
      intro s' heq
      cases heq
      refine ⟨hk, fun hchanges => ?_, ?_⟩
      · obtain hop | hop := hop <;> rw [hop] at hchanges <;> cases hchanges
      · obtain hop | hop := hop <;> rw [hop] <;> trivial
    obtain ⟨s₁, hstep, hok, -, hlength⟩ := step_spec h hproper
    refine ⟨hproper, ?_⟩
    rw [hstep]
    refine ih hok fun j hj => ?_
    rw [hlength]
    exact hops j (mem_cons_of_mem i hj)

private theorem run_all_getElem? (hop : op = .flush ∨ op = .sync) {Ms : List CoinMap}
    {m : Nat} (hm : m < Ms.length) : (run mapStep Ms (all op m)).length = Ms.length ∧
      ∀ j ≤ m, (run mapStep Ms (all op m))[j]? = Ms[0]? := by
  induction m with
  | zero =>
    refine ⟨rfl, fun j hj => ?_⟩
    obtain rfl := Nat.le_zero.mp hj
    rfl
  | succ m ih =>
    obtain ⟨hlength, hsame⟩ := ih (Nat.lt_of_succ_lt hm)
    have hsnoc : all op (m + 1) = all op m ++ [(m, op)] := by
      rw [all, range_succ, map_append]
      rfl
    have hk : m + 1 < (run mapStep Ms (all op m)).length := by
      rw [hlength]
      exact hm
    rw [hsnoc, run_append, run_cons, run_nil, mapStep]
    refine ⟨(mapAt_length hk).trans hlength, fun j hj => ?_⟩
    rw [mapAt_flush_getElem? hop hk]
    split
    · exact hsame m (le_refl m)
    · exact hsame j (by omega)

/-- A stack of caches is a stack of plain maps, over any base and for any number of caches. As long
as the operations are proper, none of them fails, every lookup returns what the map of its cache
holds, and flushing or syncing all caches leaves the map of the top in the base. -/
theorem stack_shows_maps {base : CCoinsView} (hbase : Unspent base.coins) (n : Nat)
    {ops : List (Nat × CoinsOp)} (hops : Meets step Proper (.ok (new n base)) ops) :
    ∃ s, run step (.ok (new n base)) ops = .ok s ∧ s.layers.length = n ∧
      s.Shows (run mapStep (List.replicate (n + 1) base.coins) ops) ∧
      ∀ op, op = .flush ∨ op = .sync → ∃ s', run step (.ok s) (all op n) = .ok s' ∧
        (run mapStep (List.replicate (n + 1) base.coins) ops)[0]? = some s'.base.coins := by
  obtain ⟨hnew, hmaps⟩ := stackOk_replicate hbase n
  obtain ⟨s, hrun, hok, hs, hlength⟩ := run_spec (s := new n base) hnew hops
  have hn := hlength.trans length_replicate
  have hstart : maps (new n base).base (new n base).layers = replicate (n + 1) base.coins := hmaps
  rw [hstart] at hs
  rw [← hs]
  refine ⟨s, hrun, hn, shows_maps hok, fun op hop => ?_⟩
  have hflushes : ∀ i ∈ all op n, i.1 < s.layers.length ∧ (i.2 = .flush ∨ i.2 = .sync) := by
    intro i hi
    obtain ⟨k, hk, rfl⟩ := mem_map.mp hi
    rw [hn]
    exact ⟨mem_range.mp hk, hop⟩
  obtain ⟨s', hrun', hok', hs', hlength'⟩ := run_spec hok (meets_flushes hok hflushes)
  refine ⟨s', hrun', ?_⟩
  have hm : n < (maps s.base s.layers).length := by rw [maps_length, hn]; exact Nat.lt_succ_self n
  have hlast := (run_all_getElem? hop hm).2 n (le_refl n)
  rw [← hs', maps_getElem? (by rw [hlength', hn])] at hlast
  rw [← hlast, drop_of_length_le (by rw [hlength', hn])]
  rfl

/-! ### Two caches -/

namespace TwoCaches

def outpoint : COutPoint := ⟨.fill 32 1, 0⟩

def small : Coin := ⟨⟨1000, [0x51]⟩, false, 1⟩

/-- A base that holds one coin. -/
def full : CCoinsView := ⟨update (fun _ => none) outpoint (some small), .null 32⟩

/-- A base that holds nothing. -/
def bare : CCoinsView := ⟨fun _ => none, .null 32⟩

private theorem unspent_full : Unspent full.coins := by
  intro o c h
  simp only [full, update_apply] at h
  split at h
  · cases h
    rfl
  · cases h

/-- Spend the coin in the cache at the top, and write it down to the base. -/
def spend : List (Nat × CoinsOp) := [(0, .getCoin outpoint), (0, .spendCoin outpoint)]

private theorem proper_spend : Meets step Proper (.ok (new 2 full)) spend := by
  refine ⟨?_, ?_, trivial⟩
  all_goals
    rintro s hs
    cases hs
    refine ⟨by decide, fun _ c hc => ?_, trivial⟩
    cases hc

end TwoCaches

open TwoCaches in
/-- A coin that is spent in the cache at the top is not there any more. -/
theorem stack_shows_maps_spend : ∃ s, run step (.ok (new 2 full)) spend = .ok s ∧
    s.Shows (run mapStep (List.replicate 3 full.coins) spend) := by
  obtain ⟨s, hrun, -, hshows, -⟩ := stack_shows_maps unspent_full 2 proper_spend
  exact ⟨s, hrun, hshows⟩

open TwoCaches in
/-- The cache at the top looks up a coin, and the one below spends it: the cache at the top still
has it. And if both caches add the coin, which neither shows, the one at the top cannot be flushed.
-/
theorem stale_lookup_and_misapplied_fresh :
    (∃ s, run step (.ok (new 2 full)) [(0, .getCoin outpoint), (1, .spendCoin outpoint)] = .ok s ∧
      (getCoin s.base outpoint s.layers).1 = some small ∧
      (getCoin s.base outpoint (s.layers.drop 1)).1 = none) ∧
    run step (.ok (new 2 bare))
      [(0, .addCoin outpoint small false), (1, .addCoin outpoint small false),
      (0, .flush)] = .error "FRESH flag misapplied to coin that exists in parent cache" := by
  exact ⟨⟨_, rfl, rfl, rfl⟩, rfl⟩

end CoinsStack

end Tessera.Coins
