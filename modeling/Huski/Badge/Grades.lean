import Huski.Badge.Relayer
import Huski.Lib.Tally

/-!
# How many badges of a grade there are

`gradeAmount` is counted up by `mintTo`, down by `burn`, and moved by `upgrade`, without a check.
It is the number of badges of each grade as long as no whitelisted caller upgrades a badge that
does not exist, which the relayer never does: it asks for the owner first.
-/

open Solidity

namespace Huski.Badge

theorem entry_eq_ok {values : List Nat} {i value : Nat} :
    entry values i = .ok value ↔ i < values.length ∧ values.getD i 0 = value := by
  unfold entry
  rw [List.getD_eq_getElem?_getD]
  by_cases hi : i < values.length
  · rw [List.getElem?_eq_getElem hi]
    simp [hi]
  · rw [List.getElem?_eq_none (Nat.not_lt.mp hi)]
    simp [hi]

theorem getD_set {values : List Nat} {i value : Nat} (hi : i < values.length) :
    (fun j => (values.set i value).getD j 0) =
      Function.update (fun j => values.getD j 0) i value := by
  funext j
  rw [Function.update_apply, List.getD_eq_getElem?_getD, List.getElem?_set]
  by_cases hj : j = i
  · subst hj
    simp [hi]
  · rw [if_neg hj, if_neg (Ne.symm hj), List.getD_eq_getElem?_getD]

namespace BadgeNFT

/-- The badges that exist. -/
def tokens (t : BadgeNFT) : Set Nat := {id | t.tokenOwners id ≠ 0}

/-- `gradeAmount[grade]` and `gradeLimitAmount[grade]` -/
def amount (t : BadgeNFT) (grade : Nat) : Nat := t.gradeAmount.getD grade 0

/-- The most badges a grade may have. -/
def limit (t : BadgeNFT) (grade : Nat) : Nat := t.gradeLimitAmount.getD grade 0

variable {sender src dst : Address} {tokenId grade newGrade : Nat} {t t' : BadgeNFT}

/-! ## What the calls write -/

/-- A mint is one badge more. -/
theorem tokens_mint (h : t._mint dst tokenId = .ok t'.toERC721) :
    tokenId ∉ t.tokens ∧ t'.tokens = insert tokenId t.tokens := by
  obtain ⟨hdst, hnew, _⟩ := ERC721.mint_eq_ok h
  refine ⟨fun hmem => hmem hnew, ?_⟩
  ext id
  show t'.tokenOwners id ≠ 0 ↔ id = tokenId ∨ t.tokenOwners id ≠ 0
  rw [ERC721.tokenOwners_mint h, Function.update_apply]
  by_cases hid : id = tokenId
  · simp [hid, hdst]
  · simp [hid]

/-- A burn is one badge less. -/
theorem tokens_burn (h : t._burn tokenId = .ok t'.toERC721) :
    tokenId ∈ t.tokens ∧ t'.tokens = t.tokens \ {tokenId} := by
  obtain ⟨hsome, _⟩ := ERC721.burn_eq_ok h
  refine ⟨hsome, ?_⟩
  ext id
  show t'.tokenOwners id ≠ 0 ↔ t.tokenOwners id ≠ 0 ∧ id ≠ tokenId
  rw [ERC721.tokenOwners_burn h, Function.update_apply]
  by_cases hid : id = tokenId
  · simp [hid]
  · simp [hid]

theorem tokens_transfer (h : t._transfer src dst tokenId = .ok t'.toERC721) :
    t'.tokens = t.tokens := by
  obtain ⟨hsrc, howner, hdst, _⟩ := ERC721.transfer_eq_ok h
  ext id
  show t'.tokenOwners id ≠ 0 ↔ t.tokenOwners id ≠ 0
  rw [ERC721.tokenOwners_transfer h, Function.update_apply]
  by_cases hid : id = tokenId
  · rw [if_pos hid, hid, howner]
    exact iff_of_true hdst hsrc
  · rw [if_neg hid]

/-- A mint counts one badge more of its grade, which was below its limit. -/
theorem mintTo_writes (h : t.mintTo sender dst tokenId grade = .ok t') :
    grade < t.gradeAmount.length ∧ t.amount grade < t.limit grade ∧ t' = { t with
      toERC721 := t'.toERC721
      tokensGrade := Function.update t.tokensGrade tokenId grade
      gradeAmount := t.gradeAmount.set grade (wrapAdd (t.amount grade) 1) } := by
  simp only [mintTo, bind_eq_ok, require_eq_ok, entry_eq_ok, pure_eq_ok] at h
  obtain ⟨_, _, _, ⟨hgrade, rfl⟩, _, ⟨_, rfl⟩, _, _, _, _, _, hlimit, items, _, rfl⟩ := h
  exact ⟨hgrade, hlimit, rfl⟩

/-- A burn counts one badge less of its grade. -/
theorem burn_writes (h : t.burn sender src tokenId = .ok t') :
    t.tokensGrade tokenId < t.gradeAmount.length ∧ t' = { t with
      toERC721 := t'.toERC721
      tokensGrade := Function.update t.tokensGrade tokenId 0
      gradeAmount := t.gradeAmount.set (t.tokensGrade tokenId)
        (wrapSub (t.amount (t.tokensGrade tokenId)) 1) } := by
  simp only [burn, bind_eq_ok, entry_eq_ok, pure_eq_ok] at h
  obtain ⟨_, _, _, _, _, _, items, _, _, ⟨hgrade, rfl⟩, rfl⟩ := h
  exact ⟨hgrade, rfl⟩

/-- An upgrade counts one less of the old grade and one more of the new. -/
theorem upgrade_writes (h : t.upgrade sender tokenId newGrade = .ok t') :
    t.tokensGrade tokenId < t.gradeAmount.length ∧ newGrade < t.gradeAmount.length ∧
      t.amount newGrade < t.limit newGrade ∧ t' = { t with
        tokensGrade := Function.update t.tokensGrade tokenId newGrade
        gradeAmount := (t.gradeAmount.set (t.tokensGrade tokenId)
          (wrapSub (t.amount (t.tokensGrade tokenId)) 1)).set newGrade
            (wrapAdd ((t.gradeAmount.set (t.tokensGrade tokenId)
              (wrapSub (t.amount (t.tokensGrade tokenId)) 1)).getD newGrade 0) 1) } := by
  simp only [upgrade, bind_eq_ok, require_eq_ok, entry_eq_ok, pure_eq_ok] at h
  obtain ⟨_, _, _, _, _, ⟨hnew, rfl⟩, _, ⟨_, rfl⟩, _, hlimit, _, ⟨hgrade, rfl⟩, _, ⟨_, rfl⟩,
    rfl⟩ := h
  exact ⟨hgrade, hnew, hlimit, rfl⟩

theorem transferFrom_writes (h : t.transferFrom sender src dst tokenId = .ok t') :
    t' = { t with toERC721 := t'.toERC721 } := by
  simp only [transferFrom, bind_eq_ok, pure_eq_ok] at h
  obtain ⟨_, _, items, _, rfl⟩ := h
  rfl

/-- The tables of the grades. -/
theorem setGrades_writes {ids points huskys amounts : List Nat}
    (h : t.setGrades ids points huskys amounts = .ok t') :
    t' = { t with
      gradeNeedPoints := t'.gradeNeedPoints
      gradeLockHuskys := t'.gradeLockHuskys
      gradeLimitAmount := t'.gradeLimitAmount } ∧
    ∀ limit ∈ t'.gradeLimitAmount, limit ∈ t.gradeLimitAmount ∨ limit ∈ amounts := by
  induction ids generalizing t points huskys amounts with
  | nil =>
      cases h
      exact ⟨rfl, fun limit hlimit => .inl hlimit⟩
  | cons id ids ih =>
      match points, huskys, amounts, h with
      | point :: points, husky :: huskys, amount :: amounts, h =>
          simp only [setGrades, setGrade, bind_eq_ok, pure_eq_ok] at h
          obtain ⟨_, ⟨_, _, rfl⟩, hrest⟩ := h
          obtain ⟨hsame, hlimits⟩ := ih hrest
          refine ⟨hsame, fun limit hlimit => ?_⟩
          rcases hlimits limit hlimit with hold | hnew
          · rcases List.mem_or_eq_of_mem_set hold with hold | rfl
            · exact .inl hold
            · exact .inr List.mem_cons_self
          · exact .inr (List.mem_cons_of_mem _ hnew)

theorem setGradeInfo_writes {ids points huskys amounts : List Nat}
    (h : t.setGradeInfo sender ids points huskys amounts = .ok t') :
    t' = { t with
      gradeLimit := t'.gradeLimit
      gradeNeedPoints := t'.gradeNeedPoints
      gradeLockHuskys := t'.gradeLockHuskys
      gradeLimitAmount := t'.gradeLimitAmount } ∧
    ∀ limit ∈ t'.gradeLimitAmount, limit ∈ t.gradeLimitAmount ∨ limit ∈ amounts := by
  simp only [setGradeInfo, bind_eq_ok] at h
  obtain ⟨_, _, hgrades⟩ := h
  obtain ⟨hsame, hlimits⟩ := setGrades_writes hgrades
  refine ⟨?_, hlimits⟩
  rw [hsame]

/-- What a call does to the badges. Only badges that exist are upgraded. -/
inductive Writes (t t' : BadgeNFT) : Prop
  | mints (sender dst : Address) (tokenId grade : Nat)
      (h : t.mintTo sender dst tokenId grade = .ok t')
  | burns (sender src : Address) (tokenId : Nat) (h : t.burn sender src tokenId = .ok t')
  | upgrades (sender : Address) (tokenId newGrade : Nat) (hsome : tokenId ∈ t.tokens)
      (h : t.upgrade sender tokenId newGrade = .ok t')
  | moves (sender src dst : Address) (tokenId : Nat)
      (h : t.transferFrom sender src dst tokenId = .ok t')
  | sets (sender : Address) (ids points huskys amounts : List Nat)
      (hwords : ∀ amount ∈ amounts, amount < wordSize)
      (h : t.setGradeInfo sender ids points huskys amounts = .ok t')
  | keeps (howners : t'.tokenOwners = t.tokenOwners) (h : t' = { t with
      toERC721 := t'.toERC721, owner := t'.owner, okOperators := t'.okOperators })

/-! ## The count -/

/-- `gradeAmount` counts the badges of each grade, and what does not exist has grade 0. -/
structure Graded (t : BadgeNFT) : Prop where
  length : t.gradeAmount.length = 15
  tally : Tally t.tokens t.tokensGrade t.amount
  blank : ∀ id, id ∉ t.tokens → t.tokensGrade id = 0
  small : ∀ grade, t.amount grade < wordSize
  words : ∀ limit ∈ t.gradeLimitAmount, limit < wordSize

/-- The additions and subtractions of one do not wrap. -/
structure NoWrap (t : BadgeNFT) : Prop where
  burn : ∀ sender src tokenId t', t.burn sender src tokenId = .ok t' →
    1 ≤ t.amount (t.tokensGrade tokenId)
  mintTo : ∀ sender dst tokenId grade t', t.mintTo sender dst tokenId grade = .ok t' →
    t.amount grade + 1 < wordSize
  upgrade : ∀ sender tokenId newGrade t', tokenId ∈ t.tokens →
    t.upgrade sender tokenId newGrade = .ok t' →
      1 ≤ t.amount (t.tokensGrade tokenId) ∧ t.amount newGrade + 1 < wordSize

theorem wrapAdd_one {n : Nat} (h : n + 1 < wordSize) : wrapAdd n 1 = n + 1 := Nat.mod_eq_of_lt h

theorem wrapSub_one {n : Nat} (hpos : 1 ≤ n) (h : n < wordSize) : wrapSub n 1 = n - 1 := by
  unfold wrapSub
  have hsplit : n + wordSize - 1 = n - 1 + wordSize := by omega
  rw [hsplit, Nat.add_mod_right, Nat.mod_eq_of_lt (by omega)]

theorem limit_lt (hwords : ∀ limit ∈ t.gradeLimitAmount, limit < wordSize) (grade : Nat) :
    t.limit grade < wordSize := by
  show t.gradeLimitAmount.getD grade 0 < wordSize
  rw [List.getD_eq_getElem?_getD]
  by_cases hgrade : grade < t.gradeLimitAmount.length
  · rw [List.getElem?_eq_getElem hgrade]
    exact hwords _ (List.getElem_mem hgrade)
  · rw [List.getElem?_eq_none (Nat.not_lt.mp hgrade)]
    exact Nat.two_pow_pos 256

/-- Counters of words stay words when one of them is written. -/
theorem update_lt {counts : Nat → Nat} {i value : Nat} (hcounts : ∀ j, counts j < wordSize)
    (hvalue : value < wordSize) (j : Nat) : Function.update counts i value j < wordSize := by
  rw [Function.update_apply]
  split
  · exact hvalue
  · exact hcounts j

namespace Graded

/-- The counts wrap nowhere. -/
theorem noWrap (h : Graded t) : NoWrap t where
  burn sender src tokenId t' hburns := by
    simp only [BadgeNFT.burn, bind_eq_ok, ERC721.ownerOf_eq_ok] at hburns
    obtain ⟨_, _, _, ⟨hsome, _⟩, _⟩ := hburns
    exact h.tally.pos hsome
  mintTo sender dst tokenId grade t' hmints := by
    obtain ⟨_, hlimit, _⟩ := mintTo_writes hmints
    have hword := limit_lt h.words grade
    omega
  upgrade sender tokenId newGrade t' hsome hupgrades := by
    obtain ⟨_, _, hlimit, _⟩ := upgrade_writes hupgrades
    have hword := limit_lt h.words newGrade
    exact ⟨h.tally.pos hsome, by omega⟩

/-- The grade that is minted counts one more. -/
theorem amount_mintTo (h : Graded t) (hmints : t.mintTo sender dst tokenId grade = .ok t') :
    t'.amount = Function.update t.amount grade (t.amount grade + 1) := by
  have hadds := h.noWrap.mintTo _ _ _ _ _ hmints
  obtain ⟨hgrade, _, hwrites⟩ := mintTo_writes hmints
  rw [wrapAdd_one hadds] at hwrites
  rw [hwrites]
  exact getD_set hgrade

/-- The grade that is burned counts one less. -/
theorem amount_burn (h : Graded t) (hburns : t.burn sender src tokenId = .ok t') :
    t'.amount = Function.update t.amount (t.tokensGrade tokenId)
      (t.amount (t.tokensGrade tokenId) - 1) := by
  have hpos := h.noWrap.burn _ _ _ _ hburns
  obtain ⟨hgrade, hwrites⟩ := burn_writes hburns
  rw [wrapSub_one hpos (h.small _)] at hwrites
  rw [hwrites]
  exact getD_set hgrade

/-- The counters between the two writes of `upgrade`. -/
theorem fewer_le (t : BadgeNFT) (tokenId newGrade : Nat) :
    Function.update t.amount (t.tokensGrade tokenId) (t.amount (t.tokensGrade tokenId) - 1)
      newGrade ≤ t.amount newGrade := by
  rw [Function.update_apply]
  split
  · rename_i hsame
    rw [hsame]
    exact Nat.sub_le _ _
  · exact le_rfl

theorem amount_upgrade (h : Graded t) (hsome : tokenId ∈ t.tokens)
    (hupgrades : t.upgrade sender tokenId newGrade = .ok t') :
    t'.amount = Function.update (Function.update t.amount (t.tokensGrade tokenId)
      (t.amount (t.tokensGrade tokenId) - 1)) newGrade (Function.update t.amount
        (t.tokensGrade tokenId) (t.amount (t.tokensGrade tokenId) - 1) newGrade + 1) := by
  obtain ⟨hpos, hadds⟩ := h.noWrap.upgrade _ _ _ _ hsome hupgrades
  obtain ⟨hgrade, hnew, _, hwrites⟩ := upgrade_writes hupgrades
  have hfewer : (fun g => (t.gradeAmount.set (t.tokensGrade tokenId)
      (t.amount (t.tokensGrade tokenId) - 1)).getD g 0) =
      Function.update t.amount (t.tokensGrade tokenId) (t.amount (t.tokensGrade tokenId) - 1) :=
    getD_set hgrade
  have hless := fewer_le t tokenId newGrade
  have hfewerNew := congrFun hfewer newGrade
  rw [wrapSub_one hpos (h.small _), hfewerNew, wrapAdd_one (by omega)] at hwrites
  have hnewLength : newGrade < (t.gradeAmount.set (t.tokensGrade tokenId)
      (t.amount (t.tokensGrade tokenId) - 1)).length := by
    rw [List.length_set]
    exact hnew
  rw [hwrites]
  refine (getD_set hnewLength).trans ?_
  rw [hfewer]

theorem mints (h : Graded t) (hmints : t.mintTo sender dst tokenId grade = .ok t') : Graded t' := by
  have hadds := h.noWrap.mintTo _ _ _ _ _ hmints
  have hamount := h.amount_mintTo hmints
  obtain ⟨hnew, htokens⟩ := tokens_mint (mintTo_eq_ok hmints).2
  obtain ⟨_, _, hwrites⟩ := mintTo_writes hmints
  have hgrades : t'.tokensGrade = Function.update t.tokensGrade tokenId grade := by rw [hwrites]
  refine ⟨?_, ?_, fun id hid => ?_, fun g => ?_, ?_⟩
  · rw [hwrites]
    exact List.length_set.trans h.length
  · rw [htokens, hgrades, hamount]
    exact h.tally.add hnew
  · rw [htokens] at hid
    have hother : id ≠ tokenId := fun hsame => hid (.inl hsame)
    rw [hgrades, Function.update_of_ne hother]
    exact h.blank id fun hmem => hid (.inr hmem)
  · rw [hamount]
    exact update_lt h.small hadds g
  · rw [hwrites]
    exact h.words

theorem burns (h : Graded t) (hburns : t.burn sender src tokenId = .ok t') : Graded t' := by
  have hsmall := h.small (t.tokensGrade tokenId)
  have hamount := h.amount_burn hburns
  obtain ⟨hsome, htokens⟩ := tokens_burn (burn_eq_ok hburns).2
  obtain ⟨_, hwrites⟩ := burn_writes hburns
  have hgrades : t'.tokensGrade = Function.update t.tokensGrade tokenId 0 := by rw [hwrites]
  refine ⟨?_, ?_, fun id hid => ?_, fun g => ?_, ?_⟩
  · rw [hwrites]
    exact List.length_set.trans h.length
  · rw [htokens, hgrades, hamount]
    refine (h.tally.remove hsome).congr fun id hid => ?_
    exact Function.update_of_ne hid.2 _ _
  · rw [hgrades]
    by_cases hself : id = tokenId
    · rw [hself, Function.update_self]
    · rw [Function.update_of_ne hself]
      rw [htokens] at hid
      exact h.blank id fun hmem => hid ⟨hmem, hself⟩
  · rw [hamount]
    exact update_lt h.small (by omega) g
  · rw [hwrites]
    exact h.words

theorem upgrades (h : Graded t) (hsome : tokenId ∈ t.tokens)
    (hupgrades : t.upgrade sender tokenId newGrade = .ok t') : Graded t' := by
  have hsmall := h.small (t.tokensGrade tokenId)
  obtain ⟨hpos, hadds⟩ := h.noWrap.upgrade _ _ _ _ hsome hupgrades
  -- the old grade counts one less first, also where both grades are the same
  have hless := fewer_le t tokenId newGrade
  have hamount := h.amount_upgrade hsome hupgrades
  obtain ⟨_, _, _, hwrites⟩ := upgrade_writes hupgrades
  have htokens : t'.tokens = t.tokens := by
    unfold tokens
    rw [upgrade_eq_ok hupgrades]
  have hgrades : t'.tokensGrade = Function.update t.tokensGrade tokenId newGrade := by rw [hwrites]
  refine ⟨?_, ?_, fun id hid => ?_, fun g => ?_, ?_⟩
  · rw [hwrites]
    exact List.length_set.trans (List.length_set.trans h.length)
  · rw [htokens, hgrades, hamount]
    exact h.tally.move hsome
  · rw [htokens] at hid
    have hother : id ≠ tokenId := by
      rintro rfl
      exact hid hsome
    rw [hgrades, Function.update_of_ne hother]
    exact h.blank id hid
  · rw [hamount]
    exact update_lt (update_lt h.small (by omega)) (by omega) g
  · rw [hwrites]
    exact h.words

/-- A call that leaves grades and counts, and the badges that exist. -/
theorem same (h : Graded t) (htokens : t'.tokens = t.tokens)
    (hgrades : t'.tokensGrade = t.tokensGrade) (hamounts : t'.gradeAmount = t.gradeAmount)
    (hwords : ∀ limit ∈ t'.gradeLimitAmount, limit < wordSize) : Graded t' := by
  have hamount : t'.amount = t.amount := by
    unfold amount
    rw [hamounts]
  refine ⟨?_, ?_, ?_, ?_, hwords⟩
  · rw [hamounts]
    exact h.length
  · rw [htokens, hgrades, hamount]
    exact h.tally
  · rw [htokens, hgrades]
    exact h.blank
  · rw [hamount]
    exact h.small

theorem writes (h : Graded t) (hw : Writes t t') : Graded t' := by
  cases hw with
  | mints sender dst tokenId grade hmints => exact h.mints hmints
  | burns sender src tokenId hburns => exact h.burns hburns
  | upgrades sender tokenId newGrade hsome hupgrades => exact h.upgrades hsome hupgrades
  -- the rest leaves badges, grades and counts
  | moves sender src dst tokenId hmoves =>
      have hwrites := transferFrom_writes hmoves
      refine h.same (tokens_transfer (transferFrom_eq_ok hmoves)) ?_ ?_ ?_
      · rw [hwrites]
      · rw [hwrites]
      · rw [hwrites]
        exact h.words
  | sets sender ids points huskys amounts hwords hsets =>
      obtain ⟨hwrites, hlimits⟩ := setGradeInfo_writes hsets
      refine h.same ?_ ?_ ?_ fun limit hlimit => ?_
      · rw [hwrites]
        rfl
      · rw [hwrites]
      · rw [hwrites]
      · rcases hlimits limit hlimit with hold | hnew
        · exact h.words limit hold
        · exact hwords limit hnew
  | keeps howners hkeeps =>
      refine h.same ?_ ?_ ?_ ?_
      · unfold tokens
        rw [howners]
      · rw [hkeeps]
      · rw [hkeeps]
      · rw [hkeeps]
        exact h.words

end Graded

/-! ## The limit -/

/-- A grade only grows below its limit. -/
theorem Graded.amount_le (h : Graded t) (hw : Writes t t') (grade : Nat) :
    t'.amount grade ≤ max (t.limit grade) (t.amount grade) := by
  have hsame : t'.gradeAmount = t.gradeAmount →
      t'.amount grade ≤ max (t.limit grade) (t.amount grade) := by
    intro hamounts
    unfold amount
    rw [hamounts]
    exact le_max_right _ _
  cases hw with
  -- the count goes up only where it was below the limit
  | mints sender dst tokenId newGrade hmints =>
      obtain ⟨_, hbelow, _⟩ := mintTo_writes hmints
      rw [h.amount_mintTo hmints, Function.update_apply]
      split
      · rename_i hgrade
        subst hgrade
        exact le_max_of_le_left hbelow
      · exact le_max_right _ _
  | burns sender src tokenId hburns =>
      rw [h.amount_burn hburns]
      exact le_max_of_le_right (fewer_le t tokenId grade)
  | upgrades sender tokenId newGrade hsome hupgrades =>
      obtain ⟨_, _, hbelow, _⟩ := upgrade_writes hupgrades
      have hless := fewer_le t tokenId grade
      rw [h.amount_upgrade hsome hupgrades, Function.update_apply]
      split
      · rename_i hgrade
        subst hgrade
        exact le_max_of_le_left (by omega)
      · exact le_max_of_le_right hless
  | moves sender src dst tokenId hmoves =>
      apply hsame
      rw [transferFrom_writes hmoves]
  | sets sender ids points huskys amounts hwords hsets =>
      apply hsame
      rw [(setGradeInfo_writes hsets).1]
  | keeps howners hkeeps =>
      apply hsame
      rw [hkeeps]

end BadgeNFT

/-! ## Runs -/

/-- A whitelisted caller of the badges upgrades only badges that exist; limits are words. -/
def Counted (s : State) (tx : Tx) : Prop :=
  match tx.op with
  | .token (.nftUpgrade tokenId _) => s.nft.tokenOwners tokenId ≠ 0
  | .token (.nftSetGradeInfo _ _ _ amounts) => ∀ amount ∈ amounts, amount < wordSize
  | _ => True

section Runs

open BadgeNFT

variable {s s' : State} {tx : Tx} {sender : Address} {o : Outside}

theorem upgradeBadge_upgrades {tokenId newGrade : Nat}
    (h : upgradeBadge sender o s tokenId newGrade = .ok s') :
    tokenId ∈ s.nft.tokens ∧ s.nft.upgrade s.here tokenId newGrade = .ok s'.nft := by
  simp only [upgradeBadge, bind_eq_ok, ERC721.ownerOf_eq_ok, pure_eq_ok] at h
  obtain ⟨_, _, _, _, _, _, _, ⟨hsome, _⟩, _, _, _, _, _, _, _, _, nft, hupgrades, _, _, _, _,
    rfl⟩ := h
  exact ⟨hsome, hupgrades⟩

theorem execToken_writes {op : TokenOp} {o : Outside} {value : Nat}
    (hcounted : Counted s { sender, value, outside := o, op := .token op })
    (h : execToken sender op s = .ok s') : Writes s.nft s'.nft := by
  -- a call of the points leaves the badges
  have hpoints : ∀ {f : Points → Result Points}, onPoints f s = .ok s' → Writes s.nft s'.nft := by
    intro f hf
    rw [(onPoints_eq_ok hf).2]
    exact .keeps rfl rfl
  unfold execToken at h
  cases op with
  -- approvals write neither owners nor counts
  | nftApprove dst tokenId =>
      obtain ⟨hcall, _⟩ := onNft_eq_ok h
      simp only [bind_eq_ok, pure_eq_ok] at hcall
      obtain ⟨items, happroves, hitems⟩ := hcall
      rw [← hitems]
      exact .keeps (ERC721.tokenOwners_approve happroves).1 rfl
  | nftSetApprovalForAll operator approved =>
      obtain ⟨hcall, _⟩ := onNft_eq_ok h
      simp only [bind_eq_ok, pure_eq_ok] at hcall
      obtain ⟨items, happroves, hitems⟩ := hcall
      rw [← hitems]
      exact .keeps (ERC721.tokenOwners_setApprovalForAll happroves).1 rfl
  | nftTransferFrom src dst tokenId => exact .moves _ _ _ _ (onNft_eq_ok h).1
  | nftBurn src tokenId => exact .burns _ _ _ (onNft_eq_ok h).1
  | nftMintTo dst tokenId grade => exact .mints _ _ _ _ (onNft_eq_ok h).1
  | nftUpgrade tokenId newGrade => exact .upgrades _ _ _ hcounted (onNft_eq_ok h).1
  | nftSetGradeInfo ids points huskys amounts =>
      exact .sets _ _ _ _ _ hcounted (onNft_eq_ok h).1
  | nftSetOperatorsOk operators isOk =>
      obtain ⟨hcall, _⟩ := onNft_eq_ok h
      simp only [setOperatorsOk, bind_eq_ok, pure_eq_ok] at hcall
      obtain ⟨_, _, hnft⟩ := hcall
      rw [← hnft]
      exact .keeps rfl rfl
  | nftTransferOwnership newOwner =>
      obtain ⟨hcall, _⟩ := onNft_eq_ok h
      simp only [BadgeNFT.transferOwnership, bind_eq_ok, pure_eq_ok] at hcall
      obtain ⟨_, _, _, _, hnft⟩ := hcall
      rw [← hnft]
      exact .keeps rfl rfl
  | nftRenounceOwnership =>
      obtain ⟨hcall, _⟩ := onNft_eq_ok h
      simp only [BadgeNFT.renounceOwnership, bind_eq_ok, pure_eq_ok] at hcall
      obtain ⟨_, _, hnft⟩ := hcall
      rw [← hnft]
      exact .keeps rfl rfl
  | makeInviteRelation | pointsTransfer | pointsTransferFrom | pointsMint | deleteInvite
  | pointsBurn | pointsApprove | setOperatorOk | setAllocPoint | pointsTransferOwnership
  | pointsRenounceOwnership =>
      exact hpoints h

/-- What a call does to the grades. -/
theorem exec_writes (hcounted : Counted s tx) (h : exec s tx = .ok s') :
    Writes s.nft s'.nft := by
  obtain ⟨sender, value, o, op⟩ := tx
  unfold exec at h
  cases op with
  | mintBadge tokenId grade userCode inviteCode => exact .mints _ _ _ _ (mintBadge_eq_ok h).2
  | upgradeBadge tokenId newGrade =>
      obtain ⟨hsome, hupgrades⟩ := upgradeBadge_upgrades h
      exact .upgrades _ _ _ hsome hupgrades
  | transferBadge token amount dst tokenId userCode =>
      exact .moves _ _ _ _ (transferBadge_trades h).moves
  | burn tokenId => exact .burns _ _ _ (burn_eq_ok h).1
  | mintPoints account amount multiplier =>
      rw [(mintPoints_eq_ok h).1]
      exact .keeps rfl rfl
  | transferOwnership newOwner =>
      rw [(transferOwnership_eq_ok h).1]
      exact .keeps rfl rfl
  | renounceOwnership =>
      rw [(renounceOwnership_eq_ok h).1]
      exact .keeps rfl rfl
  | token op => exact execToken_writes hcounted h

/-- The counts are those of the badges in every state of a run. -/
theorem graded_inductive : machine.Inductive Counted fun s => s.nft.Graded where
  init s hinit := by
    obtain ⟨nftOwner, _, hnft, _⟩ := hinit
    rw [hnft]
    have hzero : BadgeNFT.amount { owner := nftOwner } = fun _ => 0 := by
      funext grade
      show (List.replicate 15 0).getD grade 0 = 0
      rw [List.getD_eq_getElem?_getD]
      exact List.getElem?_getD_replicate_default_eq 0 15 grade
    refine ⟨rfl, ?_, fun _ _ => rfl, fun grade => ?_, fun limit hlimit => ?_⟩
    · have hnone : BadgeNFT.tokens { owner := nftOwner } = ∅ :=
        Set.eq_empty_of_forall_notMem fun _ hid => hid rfl
      rw [hnone, hzero]
      exact Tally.empty _
    · rw [hzero]
      exact Nat.two_pow_pos 256
    · rw [List.eq_of_mem_replicate hlimit]
      exact Nat.two_pow_pos 256
  step _ _ _ h hcounted hstep := h.writes (exec_writes hcounted hstep)

/-- The limit of a grade stays as it is. -/
def KeepsLimit (grade : Nat) (s : State) (tx : Tx) : Prop :=
  ∀ s', exec s tx = .ok s' → s'.nft.limit grade = s.nft.limit grade

theorem amount_le_of_keepsLimit {grade : Nat} (h : s.nft.Graded)
    (hrun : (machine.startAt s).ReachableBy (fun s tx => Counted s tx ∧ KeepsLimit grade s tx) s') :
    s'.nft.Graded ∧ s'.nft.limit grade = s.nft.limit grade ∧
      s'.nft.amount grade ≤ max (s'.nft.limit grade) (s.nft.amount grade) := by
  induction hrun with
  | init hstart =>
      cases hstart
      exact ⟨h, rfl, le_max_right _ _⟩
  | step _ hok hstep ih =>
      obtain ⟨hgraded, hlimit, hle⟩ := ih
      have hw := exec_writes hok.1 hstep
      have hkeeps := hok.2 _ hstep
      have hbound := hgraded.amount_le hw grade
      refine ⟨hgraded.writes hw, hkeeps.trans hlimit, ?_⟩
      rw [hkeeps]
      exact hbound.trans (max_le (le_max_left _ _) hle)

/-- In every state of a run through the relayer, with `setGradeInfo` at any time: `gradeAmount` is
the number of badges of each grade, its additions and subtractions do not wrap, what is no badge
has grade 0, and from here on a grade stays within its limit, or what it has now, as long as the
limit stays. -/
theorem gradeAmount_of_reachable (s : State) (hreach : machine.ReachableBy Counted s) :
    s.nft.gradeAmount.length = 15 ∧
    (∀ grade, {tokenId | s.nft.tokenOwners tokenId ≠ 0 ∧ s.nft.tokensGrade tokenId = grade}.encard
      = s.nft.amount grade) ∧
    s.nft.NoWrap ∧
    (∀ tokenId, s.nft.tokenOwners tokenId = 0 → s.nft.tokensGrade tokenId = 0) ∧
    ∀ grade s', (machine.startAt s).ReachableBy
        (fun s tx => Counted s tx ∧ KeepsLimit grade s tx) s' →
      s'.nft.amount grade ≤ max (s'.nft.limit grade) (s.nft.amount grade) := by
  have h := graded_inductive.invariant hreach
  refine ⟨h.length, h.tally, h.noWrap, fun tokenId hnone => ?_, fun grade s' hrun => ?_⟩
  · exact h.blank tokenId fun hsome => hsome hnone
  · exact (amount_le_of_keepsLimit h hrun).2.2

instance (s : State) (tx : Tx) : Decidable (Counted s tx) := by
  obtain ⟨sender, value, outside, op⟩ := tx
  unfold Counted
  dsimp only
  split <;> exact inferInstance

/-- Two badges of the second grade, one of which came from the first. -/
theorem gradeAmount_of_upgrade :
    ∃ s, machine.ReachableBy Counted s ∧
      {tokenId | s.nft.tokenOwners tokenId ≠ 0 ∧ s.nft.tokensGrade tokenId = 1}.encard = 2 := by
  have hrun : (machine.guarded fun s tx => Counted s tx).lastStep deployed
      (opening ++ [{ sender := 50, op := .token (.nftSetGradeInfo [0, 1] [0, 0] [0, 0] [2, 2]) },
        { sender := 1, op := .mintBadge 123 0 10001 0 },
        { sender := 2, op := .mintBadge 124 1 10002 0 }])
      { sender := 1, op := .upgradeBadge 123 1 }
      (fun _ s => s.nft.amount 1 = 2) = true := by
    decide +kernel
  obtain ⟨s₁, s, hreach, hstep, htest⟩ :=
    TSys.lastStep_reachable (M := machine.guarded _) deployed_init hrun
  have htwo : s.nft.amount 1 = 2 := of_decide_eq_true htest
  have hreach : machine.ReachableBy Counted s :=
    TSys.reachableBy_of_guarded (fun _ _ hcheck => of_decide_eq_true hcheck)
      (.step hreach trivial hstep)
  refine ⟨s, hreach, ?_⟩
  rw [(gradeAmount_of_reachable s hreach).2.1 1, htwo]
  rfl

end Runs

end Huski.Badge
