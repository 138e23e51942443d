import Thingd.ThingDb.Interference

namespace Thingd.ThingDb

inductive PageAnswer
  | page (entries : List Entry)
  | count (n : ℕ)
  deriving DecidableEq

def PageAnswer.of (countOnly : Bool) (entries : List Entry) : PageAnswer :=
  if countOnly then .count entries.length else .page entries

inductive PageOutcome
  | ok (answer : PageAnswer)
  | error (message : String)
  deriving DecidableEq

def TablePage.needsRefill (page : TablePage) : Bool :=
  (page.state.records.isEmpty && page.state.hasMore) || (page.pending.records.isEmpty && page.pending.hasMore)

def emptyPage : TablePage := ⟨⟨[], none, false⟩, ⟨[], none, false⟩, []⟩

def capturePage (inner : Inner) (ns : Bytes) (bounds : ScanBounds) : TablePage :=
  if bounds.emptyRange ns then emptyPage
  else captureDurableTablePage inner (bounds.lower ns) (bounds.upper ns) (bounds.cursorAfter ns)

/-- The lock is taken only to refill a chunk of a memtable; `gaps` is what other threads do before each acquisition. -/
def lockForRefill (page : TablePage) (db : Database) (gaps : List (List Interference)) :
    Database × List (List Interference) :=
  if page.needsRefill then (db.evolve (gaps.headD []), gaps.tail) else (db, gaps)

section Scan

variable (ns : Bytes) (bounds : ScanBounds) (offset limit : ℕ)

def tablePageLoop (captured : Inner) : ℕ → Database → List (List Interference) → TablePage → ℕ → List Entry →
    List Entry × Database × List (List Interference)
  | 0, db, gaps, _, _, entries => (entries, db, gaps)
  | fuel + 1, db, gaps, page, skipped, entries =>
    if limit ≤ entries.length then (entries, db, gaps)
    else
      let locked := lockForRefill page db gaps
      if page.needsRefill && decide (locked.1.inner.stateGeneration ≠ captured.stateGeneration) then (entries, locked)
      else
        let source := { captured with state := locked.1.inner.state, pendingTable := locked.1.inner.pendingTable }
        match tablePageNext source (bounds.lower ns) (bounds.upper ns) page with
        | none => (entries, locked)
        | some ((key, value), page) =>
          match value, bounds.userKey ns key with
          | some value, some user =>
            if skipped < offset then tablePageLoop captured fuel locked.1 locked.2 page (skipped + 1) entries
            else tablePageLoop captured fuel locked.1 locked.2 page skipped (entries ++ [(user, value)])
          | _, _ => tablePageLoop captured fuel locked.1 locked.2 page skipped entries

def tablePageAttempts (countOnly : Bool) : ℕ → Database → List (List Interference) → PageOutcome
  | 0, _, _ => .error "bounded ThingDB table scan retry loop exits explicitly"
  | attempts + 1, captured, gaps =>
    let merged := tablePageLoop ns bounds offset limit captured.inner captured.inner.recordCount captured gaps
      (capturePage captured.inner ns bounds) 0 []
    let validated := merged.2.1.evolve (merged.2.2.headD [])
    if validated.inner.stateGeneration = captured.inner.stateGeneration then .ok (PageAnswer.of countOnly merged.1)
    else if attempts = 0 then .error "ThingDB durable scan changed repeatedly while reading table blocks"
    else tablePageAttempts countOnly attempts validated merged.2.2.tail

end Scan

def Database.tablePage (db : Database) (keyspace : Keyspace) (bounds : ScanBounds) (offset limit : ℕ)
    (countOnly : Bool) (gaps : List (List Interference)) : PageOutcome :=
  tablePageAttempts keyspace.namespace bounds offset limit countOnly 4 db gaps

def Later (db : Database) (gaps : List (List Interference)) (moment : Database × List (List Interference)) : Prop :=
  ∃ used, used ++ moment.2.flatten = gaps.flatten ∧ moment.1 = db.evolve used

theorem Later.refl (db : Database) (gaps : List (List Interference)) : Later db gaps (db, gaps) := ⟨[], rfl, rfl⟩

variable {db : Database} {gaps : List (List Interference)}

theorem Later.trans {a b : Database × List (List Interference)} (h : Later db gaps a) (h' : Later a.1 a.2 b) :
    Later db gaps b := by
  obtain ⟨used, hgaps, hdb⟩ := h
  obtain ⟨used', hgaps', hdb'⟩ := h'
  refine ⟨used ++ used', ?_, ?_⟩
  · rw [List.append_assoc, hgaps', hgaps]
  · rw [hdb', hdb, Database.evolve_append]

theorem later_acquire (db : Database) (gaps : List (List Interference)) :
    Later db gaps (db.evolve (gaps.headD []), gaps.tail) := by
  refine ⟨gaps.headD [], ?_, rfl⟩
  cases gaps <;> rfl

theorem later_lockForRefill (page : TablePage) (db : Database) (gaps : List (List Interference)) :
    Later db gaps (lockForRefill page db gaps) := by
  unfold lockForRefill
  split_ifs
  · exact later_acquire db gaps
  · exact Later.refl db gaps

variable {moment : Database × List (List Interference)}

theorem Later.generation_le (h : Later db gaps moment)
    (hroom : db.inner.stateGeneration + gaps.flatten.length < u64Max) :
    db.inner.stateGeneration ≤ moment.1.inner.stateGeneration ∧
      moment.1.inner.stateGeneration + moment.2.flatten.length < u64Max := by
  obtain ⟨used, hgaps, hdb⟩ := h
  have hlength : used.length + moment.2.flatten.length = gaps.flatten.length := by rw [← List.length_append, hgaps]
  have hle := @Database.generation_evolve_le db used
  have hmono := (@Database.le_generation_evolve db (by omega) used).1
  rw [← hdb] at hle hmono
  omega

theorem Later.sameData (h : Later db gaps moment) (hroom : db.inner.stateGeneration + gaps.flatten.length < u64Max)
    (hsame : moment.1.inner.stateGeneration = db.inner.stateGeneration) : SameData db.inner moment.1.inner := by
  obtain ⟨used, -, hdb⟩ := h
  rw [hdb] at hsame ⊢
  exact Database.sameData_of_generation (by omega) hsame

section Loop

variable {ns : Bytes} {bounds : ScanBounds} {offset limit : ℕ} {captured : Inner}

theorem later_tablePageLoop (fuel : ℕ) (db : Database) (gaps : List (List Interference)) (page : TablePage)
    (skipped : ℕ) (entries : List Entry) :
    Later db gaps (tablePageLoop ns bounds offset limit captured fuel db gaps page skipped entries).2 := by
  induction fuel generalizing db gaps page skipped entries with
  | zero => exact Later.refl db gaps
  | succ fuel ih =>
    have hlock := later_lockForRefill page db gaps
    rw [tablePageLoop]
    dsimp only
    split
    · exact Later.refl db gaps
    · split
      · exact hlock
      · split
        · exact hlock
        · split
          · split
            · exact hlock.trans (ih _ _ _ _ _)
            · exact hlock.trans (ih _ _ _ _ _)
          · exact hlock.trans (ih _ _ _ _ _)

theorem tablePageLoop_eq {fuel : ℕ} {page : TablePage} {examined skipped : ℕ} {entries : List Entry}
    (hdata : SameData captured db.inner) (hgeneration : db.inner.stateGeneration = captured.stateGeneration)
    (hroom : db.inner.stateGeneration + gaps.flatten.length < u64Max)
    (hend : (tablePageLoop ns bounds offset limit captured fuel db gaps page skipped
      entries).2.1.inner.stateGeneration = captured.stateGeneration) :
    scanLoop (tablePageNext captured (bounds.lower ns) (bounds.upper ns)) (bounds.userKey ns) offset (some limit) none
      fuel
        page examined skipped entries =
      some (tablePageLoop ns bounds offset limit captured fuel db gaps page skipped entries).1 := by
  induction fuel generalizing db gaps page examined skipped entries with
  | zero => rfl
  | succ fuel ih =>
    have hlock := later_lockForRefill page db gaps
    rw [tablePageLoop] at hend ⊢
    rw [scanLoop]
    simp only [Option.any_some, decide_eq_true_eq, Option.any_none, Bool.false_eq_true, if_false]
    by_cases hlimit : limit ≤ entries.length
    · rw [if_pos hlimit, if_pos hlimit]
    · rw [if_neg hlimit] at hend ⊢
      rw [if_neg hlimit]
      dsimp only at hend ⊢
      by_cases hstale : (page.needsRefill &&
          decide ((lockForRefill page db gaps).1.inner.stateGeneration ≠ captured.stateGeneration)) = true
      · rw [if_pos hstale] at hend
        rw [Bool.and_eq_true, decide_eq_true_eq] at hstale
        exact absurd hend hstale.2
      · rw [if_neg hstale] at hend ⊢
        have hsame : (lockForRefill page db gaps).1.inner.stateGeneration = db.inner.stateGeneration := by
          cases hrefill : page.needsRefill with
          | true => simpa [hrefill, hgeneration] using hstale
          | false => simp [lockForRefill, hrefill]
        have hlocked := hdata.trans (hlock.sameData hroom hsame)
        have hroom' := (hlock.generation_le hroom).2
        have hsource : ({ captured with
            state := (lockForRefill page db gaps).1.inner.state
            pendingTable := (lockForRefill page db gaps).1.inner.pendingTable } : Inner) = captured := by
          rw [hlocked.state, hlocked.pendingTable]
        rw [hsource] at hend ⊢
        cases hnext : tablePageNext captured (bounds.lower ns) (bounds.upper ns) page with
        | none => rfl
        | some found =>
          obtain ⟨⟨key, value⟩, page'⟩ := found
          rw [hnext] at hend
          dsimp only at hend ⊢
          have hstart := hsame.trans hgeneration
          cases value with
          | none => exact ih hlocked hstart hroom' hend
          | some value =>
            cases huser : bounds.userKey ns key with
            | none =>
              rw [huser] at hend
              exact ih hlocked hstart hroom' hend
            | some user =>
              rw [huser] at hend
              split_ifs at hend ⊢
              · exact ih hlocked hstart hroom' hend
              · exact ih hlocked hstart hroom' hend

theorem scanLoop_emptyPage (inner : Inner) (fuel : ℕ) :
    scanLoop (tablePageNext inner (bounds.lower ns) (bounds.upper ns)) (bounds.userKey ns) offset (some limit) none fuel
      emptyPage 0 0 [] = some [] := by
  cases fuel with
  | zero => rfl
  | succ fuel =>
    have hnext : tablePageNext inner (bounds.lower ns) (bounds.upper ns) emptyPage = none := rfl
    rw [scanLoop]
    split_ifs <;> rfl

theorem merged_eq {merged : List Entry × Database × List (List Interference)}
    (hmerged : tablePageLoop ns bounds offset limit db.inner db.inner.recordCount db gaps
      (capturePage db.inner ns bounds) 0 [] = merged)
    (hroom : db.inner.stateGeneration + gaps.flatten.length < u64Max)
    (hvalid : (merged.2.1.evolve (merged.2.2.headD [])).inner.stateGeneration = db.inner.stateGeneration) :
    merged.1 = pageOf offset (some limit) (db.inner.visible ns bounds) := by
  have hlater : Later db gaps merged.2 := hmerged ▸ later_tablePageLoop _ _ _ _ _ _
  obtain ⟨hle, hroom'⟩ := hlater.generation_le hroom
  have hle' := ((later_acquire merged.2.1 merged.2.2).generation_le hroom').1
  have hend : merged.2.1.inner.stateGeneration = db.inner.stateGeneration := by
    rw [hvalid] at hle'
    omega
  have hloop := @tablePageLoop_eq db gaps ns bounds offset limit db.inner db.inner.recordCount
    (capturePage db.inner ns bounds) 0 0 [] (SameData.refl _) rfl hroom (by rw [hmerged]; exact hend)
  rw [hmerged] at hloop
  have hpage := iterDurableTablePage_eq db.inner ns bounds offset limit
  unfold iterDurableTablePage at hpage
  unfold capturePage at hloop
  by_cases hempty : bounds.emptyRange ns = true
  · rw [if_pos hempty] at hpage hloop
    rw [scanLoop_emptyPage] at hloop
    rw [← hpage]
    exact (Option.some.inj hloop).symm
  · rw [if_neg hempty] at hpage hloop
    dsimp only at hpage
    rw [hloop] at hpage
    exact hpage

theorem tablePageAttempts_ok {countOnly : Bool} {attempts : ℕ} {answer : PageAnswer}
    (hroom : db.inner.stateGeneration + gaps.flatten.length < u64Max)
    (hok : tablePageAttempts ns bounds offset limit countOnly attempts db gaps = .ok answer) :
    ∃ moment, Later db gaps moment ∧
      answer = PageAnswer.of countOnly (pageOf offset (some limit) (moment.1.inner.visible ns bounds)) := by
  induction attempts generalizing db gaps with
  | zero => cases hok
  | succ attempts ih =>
    rw [tablePageAttempts] at hok
    generalize hmerged : tablePageLoop ns bounds offset limit db.inner db.inner.recordCount db gaps
      (capturePage db.inner ns bounds) 0 [] = merged at hok
    have hlater : Later db gaps merged.2 := hmerged ▸ later_tablePageLoop _ _ _ _ _ _
    have hnext := hlater.trans (later_acquire merged.2.1 merged.2.2)
    split_ifs at hok with hvalid hlast
    · cases hok
      refine ⟨(db, gaps), Later.refl db gaps, ?_⟩
      rw [merged_eq hmerged hroom hvalid]
    · obtain ⟨moment, hmoment, hanswer⟩ := ih (hnext.generation_le hroom).2 hok
      exact ⟨moment, hnext.trans hmoment, hanswer⟩

end Loop

/-- A page or a count that is returned without an error is the one of a single state that the database was in. -/
theorem table_page_is_snapshot {db : Database} {keyspace : Keyspace} {bounds : ScanBounds} {offset limit : ℕ}
    {countOnly : Bool} {gaps : List (List Interference)} {answer : PageAnswer}
    (hroom : db.inner.stateGeneration + gaps.flatten.length < u64Max)
    (hok : db.tablePage keyspace bounds offset limit countOnly gaps = .ok answer) :
    ∃ before later live, before ++ later = gaps.flatten ∧ Matching ((db.evolve before).get keyspace) bounds live ∧
      answer = PageAnswer.of countOnly (pageOf offset (some limit) live) := by
  obtain ⟨moment, ⟨used, hgaps, hdb⟩, hanswer⟩ := tablePageAttempts_ok hroom hok
  refine ⟨used, _, _, hgaps, (db.evolve used).matching_visible keyspace bounds, ?_⟩
  rw [hanswer, hdb]

theorem table_page_retries_after_commit :
    ∃ db ∈ sampleLayered,
      db.tablePage sampleKeyspace (prefixBounds [] none) 0 2 false [[.commit [samplePut [97, 0, 0] [9]]]] =
          .ok (.page [([0], [9]), ([1], [1])]) ∧
        ∃ before later live, before ++ later = [[Interference.commit [samplePut [97, 0, 0] [9]]]].flatten ∧
          Matching ((db.evolve before).get sampleKeyspace) (prefixBounds [] none) live ∧
          PageAnswer.page [([0], [9]), ([1], [1])] = PageAnswer.of false (pageOf 0 (some 2) live) := by
  have hrun : sampleLayered.map (fun db => (db.inner.stateGeneration,
      db.tablePage sampleKeyspace (prefixBounds [] none) 0 2 false [[.commit [samplePut [97, 0, 0] [9]]]])) =
      some (3, .ok (.page [([0], [9]), ([1], [1])])) := by decide +kernel
  obtain ⟨db, hdb, hvalues⟩ := Option.map_eq_some_iff.mp hrun
  obtain ⟨hgeneration, hok⟩ := Prod.mk.inj hvalues
  refine ⟨db, hdb, hok, table_page_is_snapshot ?_ hok⟩
  rw [hgeneration]
  decide

end Thingd.ThingDb
