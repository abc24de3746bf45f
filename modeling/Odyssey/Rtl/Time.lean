import Mathlib.Tactic

/-! Times and time fields (`lib/rtl/time.c`). -/
namespace Odyssey.Rtl.Time
open List

/-- `TIME_FIELDS`, whose members are `CSHORT`. -/
@[ext] structure TimeFields where
  year : Int
  month : Int
  day : Int
  hour : Int
  minute : Int
  second : Int
  milliseconds : Int
  weekday : Int
deriving DecidableEq

def ticksPerSec : Int := 10000000

def ticksPerMsec : Int := 10000

def secsPerDay : Int := 86400

def epochYear : Int := 1601

def isLeapYear (year : Int) : Bool :=
  year.tmod 4=0 ∧ (year.tmod 100≠0 ∨ year.tmod 400=0)

def yearLengths (leap : Bool) : Int := if leap then 366 else 365

def monthLengths (leap : Bool) : List Int :=
  [31,if leap then 29 else 28,31,30,31,30,31,31,30,31,30,31]

def daysSinceEpoch (year : Int) : Int :=
  let year := year-1
  year*365+year.tdiv 4-year.tdiv 100+year.tdiv 400-
    ((epochYear-1)*365+(epochYear-1)/4-(epochYear-1)/100+(epochYear-1)/400)

def monthLength (year month : Int) : Int := (monthLengths (isLeapYear year)).getD (month-1).toNat 0

/-- The days of the months before this one. -/
def daysBefore (year month : Int) : Int :=
  ((monthLengths (isLeapYear year)).take (month-1).toNat).sum

def Rejected (f : TimeFields) : Prop :=
  f.milliseconds<0 ∨ f.milliseconds > 999 ∨ f.second<0 ∨ f.second > 59 ∨
    f.minute<0 ∨ f.minute > 59 ∨ f.hour<0 ∨ f.hour > 23 ∨ f.month<1 ∨ f.month > 12 ∨
    f.day<1 ∨ f.day > monthLength f.year f.month ∨ f.year<1601

instance : DecidablePred Rejected := fun f => by unfold Rejected; infer_instance

/-- The ticks of a day and a time of day; the steps of the sum wrap at 64 bits. -/
def ticks (days : Int) (f : TimeFields) : Int :=
  (days*secsPerDay+(f.hour*3600+f.minute*60+f.second))*ticksPerSec+f.milliseconds*ticksPerMsec

def rtlTimeFieldsToTime (f : TimeFields) : Option Int :=
  if Rejected f then none
  else some ((ticks (daysSinceEpoch f.year+daysBefore f.year f.month+(f.day-1)) f).bmod (2^64))

/-- The seconds in the day are above `-secsPerDay`: the loop that adjusts them has one turn. -/
def daysAndSeconds (time : Int) : Int × Int :=
  let seconds := time.tdiv ticksPerSec
  if seconds.tmod secsPerDay<0 then
    (seconds.tdiv secsPerDay-1, seconds.tmod secsPerDay+secsPerDay)
  else (seconds.tdiv secsPerDay, seconds.tmod secsPerDay)

def yearLoop : Nat → Int → Int → Int × Int
  | 0, year, days => (year, days)
  | fuel+1, year, days =>
    if days<yearLengths (isLeapYear year) then (year, days)
    else yearLoop fuel (year+1) (days-yearLengths (isLeapYear year))

/-- Each turn takes a year off the days that are left, which bounds the turns. -/
def computeYear (days : Int) : Int × Int :=
  let year := epochYear+days.tdiv 366
  yearLoop (days-daysSinceEpoch year).toNat year (days-daysSinceEpoch year)

def monthLoop : List Int → Int → Int → Int × Int
  | [], month, days => (month, days)
  | length::rest, month, days =>
    if days ≥ length then monthLoop rest (month+1) (days-length) else (month, days)

/-- The fields of a 64-bit time fit into a `CSHORT`: its years are below 30829. -/
def rtlTimeToTimeFields (time : Int) : TimeFields :=
  let (days, secondsInDay) := daysAndSeconds time
  let (year, rest) := computeYear days
  let (month, rest) := monthLoop (monthLengths (isLeapYear year)) 0 rest
  { year, month := month+1, day := rest+1
    hour := secondsInDay.tdiv 3600
    minute := (secondsInDay.tmod 3600).tdiv 60
    second := (secondsInDay.tmod 3600).tmod 60
    milliseconds := (time.tmod ticksPerSec).tdiv ticksPerMsec
    weekday := (1+days).tmod 7 }

/-- The days from 1601-01-01 to the first day of a year of the proleptic Gregorian calendar. -/
def newYear (y : Int) : Int := (y-1)*365+(y-1)/4-(y-1)/100+(y-1)/400-584388

def dayNumber (f : TimeFields) : Int := newYear f.year+daysBefore f.year f.month+(f.day-1)

def exactTime (f : TimeFields) : Int := ticks (dayNumber f) f

section Years
variable {y z : Int}

theorem daysSinceEpoch_eq (hy : 1≤y) : daysSinceEpoch y=newYear y := by
  have h : 0≤y-1 := by omega
  simp only [daysSinceEpoch,Int.tdiv_eq_ediv_of_nonneg h,epochYear,newYear]
  omega

theorem yearLengths_eq : yearLengths (isLeapYear y) =
    if y%4=0 ∧ (y%100≠0 ∨ y%400=0) then 366 else 365 := by
  simp [yearLengths,isLeapYear,← Int.dvd_iff_tmod_eq_zero]

theorem newYear_succ : newYear (y+1)=newYear y+yearLengths (isLeapYear y) := by
  rw [newYear,newYear,yearLengths_eq]
  split
  · omega
  · omega

theorem newYear_mono (h : y≤z) : newYear y+365*(z-y)≤newYear z := by
  rw [newYear,newYear]
  omega

/-- The year and the day in it that a number of days stands for. -/
theorem yearLoop_eq {d e : Int} (hyz : y≤z) (h0 : 0≤e) (he : e<yearLengths (isLeapYear z))
    (fuel : Nat) (hfuel : z-y≤fuel) (hd : newYear y+d=newYear z+e) :
    yearLoop fuel y d=(z, e) := by
  induction fuel generalizing y d with
  | zero =>
    obtain rfl : y=z := by omega
    obtain rfl : d=e := by omega
    rfl
  | succ fuel ih =>
    rw [yearLoop]
    obtain rfl | hlt := hyz.eq_or_lt
    · obtain rfl : d=e := by omega
      rw [if_pos he]
    · have hmono := newYear_mono hlt
      have hsucc := newYear_succ (y := y)
      rw [if_neg (by omega)]
      exact ih (by omega) (by omega) (by omega)

theorem computeYear_eq {e : Int} (hz : 1601≤z) (h0 : 0≤e) (he : e<yearLengths (isLeapYear z)) :
    computeYear (newYear z+e)=(z, e) := by
  have hlast : newYear z+e<newYear (z+1) := by rw [newYear_succ]; omega
  have hfirst := newYear_mono hz
  have hbound : newYear (z+1)≤366*(z+1-1601) := by rw [newYear]; omega
  have hzero : newYear 1601=0 := by decide
  simp only [computeYear,Int.tdiv_eq_ediv_of_nonneg (show 0≤newYear z+e by omega),epochYear]
  have hle : 1601+(newYear z+e)/366≤z := by omega
  have hmono := newYear_mono hle
  rw [daysSinceEpoch_eq (by omega)]
  exact yearLoop_eq hle h0 he _ (by omega) (by omega)

theorem exists_year (n : Nat) : ∃ z e : Int, 1601≤z ∧ 0≤e ∧ e<yearLengths (isLeapYear z) ∧
    newYear z+e=n := by
  induction n with
  | zero => exact ⟨1601,0,by decide⟩
  | succ n ih =>
    obtain ⟨z,e,hz,h0,he,hn⟩ := ih
    by_cases hlast : e+1<yearLengths (isLeapYear z)
    · exact ⟨z,e+1,hz,by omega,hlast,by omega⟩
    · have hsucc := newYear_succ (y := z)
      have hnext := newYear_succ (y := z+1)
      have hmono := newYear_mono (show z+1≤z+1+1 by omega)
      exact ⟨z+1,0,by omega,le_rfl,by omega,by omega⟩

end Years

section Months
variable {l : List Int}

theorem monthLoop_eq {e : Int} (h0 : 0≤e) (hpos : ∀ x∈l, 0<x) (k : Nat) (he : e<l.getD k 0)
    (month : Int) : monthLoop l month ((l.take k).sum+e)=(month+k, e) := by
  induction l generalizing k month with
  | nil => simp at he; omega
  | cons x l ih =>
    rw [monthLoop]
    cases k with
    | zero =>
      rw [if_neg (by simpa using he)]
      simp
    | succ k =>
      have hsum : 0≤(l.take k).sum :=
        sum_nonneg fun y hy => (hpos y (mem_cons_of_mem x (mem_of_mem_take hy))).le
      have htake : ((x::l).take (k+1)).sum+e-x=(l.take k).sum+e := by simp; ring
      rw [if_pos (by simp; omega),htake,
        ih (fun y hy => hpos y (mem_cons_of_mem x hy)) k (by simpa using he)]
      push_cast
      congr 1
      ring

theorem exists_month {d : Int} (h0 : 0≤d) (h : d<l.sum) :
    ∃ k<l.length, ∃ e, 0≤e ∧ e<l.getD k 0 ∧ (l.take k).sum+e=d := by
  induction l generalizing d with
  | nil => simp at h; omega
  | cons x l ih =>
    rw [sum_cons] at h
    by_cases hx : d<x
    · exact ⟨0,by simp,d,h0,by simpa using hx,by simp⟩
    · obtain ⟨k,hk,e,he0,he,hsum⟩ := ih (d := d-x) (by omega) (by omega)
      exact ⟨k+1,by simpa using hk,e,he0,by simpa using he,by simp; omega⟩

theorem monthLengths_take (leap : Bool) : ∀ k<12, 0≤((monthLengths leap).take k).sum ∧
    ((monthLengths leap).take k).sum+(monthLengths leap).getD k 0≤yearLengths leap := by
  revert leap
  decide

end Months

section Fields
variable {f : TimeFields}

theorem daysAndSeconds_eq {d s u : Int} (hd : 0≤d) (hs0 : 0≤ s) (hs : s<86400) (hu0 : 0≤u)
    (hu : u<10000000) : daysAndSeconds ((d*secsPerDay+s)*ticksPerSec+u)=(d, s) ∧
      ((d*secsPerDay+s)*ticksPerSec+u).tmod ticksPerSec=u := by
  have htime : 0≤(d*86400+s)*10000000+u := by omega
  have hsecs : 0≤d*86400+s := by omega
  have hdiv : ((d*86400+s)*10000000+u)/10000000=d*86400+s := by omega
  simp only [daysAndSeconds,secsPerDay,ticksPerSec,Int.tdiv_eq_ediv_of_nonneg htime,
    Int.tmod_eq_emod_of_nonneg htime,hdiv,Int.tdiv_eq_ediv_of_nonneg hsecs,
    Int.tmod_eq_emod_of_nonneg hsecs]
  rw [if_neg (by omega)]
  exact ⟨Prod.ext (by simp; omega) (by simp; omega),by omega⟩

/-- A valid date is the day of the year that its month and its day stand for. -/
theorem daysBefore_add {y m d : Int} (hm : 1≤ m ∧ m≤12) (hd : 1≤d ∧ d≤ monthLength y m) :
    0≤daysBefore y m+(d-1) ∧ daysBefore y m+(d-1)<yearLengths (isLeapYear y) := by
  have := monthLengths_take (isLeapYear y) (m-1).toNat (by omega)
  simp only [daysBefore,monthLength] at hd ⊢
  omega

/-- The fields are those of the date that the number of ticks stands for. -/
theorem rtlTimeToTimeFields_eq (h : ¬Rejected f) {r : Int} (h0 : 0≤r) (hr : r<ticksPerMsec) :
    rtlTimeToTimeFields (exactTime f+r)={ f with weekday := (dayNumber f+1)%7 } := by
  simp only [Rejected,not_or,not_lt,gt_iff_lt] at h
  have hday := daysBefore_add (y := f.year) (m := f.month) (d := f.day) (by omega) (by omega)
  have hfirst := newYear_mono (y := 1601) (z := f.year) (by omega)
  have hzero : newYear 1601=0 := by decide
  have hnumber : dayNumber f=newYear f.year+(daysBefore f.year f.month+(f.day-1)) := by
    rw [dayNumber,add_assoc]
  simp only [ticksPerMsec] at hr
  obtain ⟨hsplit,hmsec⟩ := daysAndSeconds_eq (d := dayNumber f) (by omega)
    (s := f.hour*3600+f.minute*60+f.second) (by omega) (by omega)
    (u := f.milliseconds*10000+r) (by omega) (by omega)
  have htime : exactTime f+r=(dayNumber f*secsPerDay+
      (f.hour*3600+f.minute*60+f.second))*ticksPerSec+(f.milliseconds*10000+r) := by
    simp only [exactTime,ticks,ticksPerMsec]
    ring
  have hmonth := monthLoop_eq (l := monthLengths (isLeapYear f.year)) (e := f.day-1) (by omega)
    (by cases isLeapYear f.year <;> decide) (f.month-1).toNat
    (by have := h; simp only [monthLength] at this; omega) 0
  have hsecs : 0≤f.hour*3600+f.minute*60+f.second := by omega
  have hrest : 0≤(f.hour*3600+f.minute*60+f.second)%3600 := by omega
  have hmsecs : 0≤f.milliseconds*10000+r := by omega
  have hweek : 0≤1+dayNumber f := by omega
  simp only [rtlTimeToTimeFields,htime,hsplit,hmsec,Int.tdiv_eq_ediv_of_nonneg hsecs,
    Int.tmod_eq_emod_of_nonneg hsecs,Int.tdiv_eq_ediv_of_nonneg hrest,
    Int.tmod_eq_emod_of_nonneg hrest,Int.tmod_eq_emod_of_nonneg hweek,ticksPerMsec,
    Int.tdiv_eq_ediv_of_nonneg hmsecs]
  rw [hnumber,computeYear_eq (by omega) hday.1 hday.2]
  simp only [daysBefore,hmonth]
  ext <;> dsimp only <;> omega

theorem rtlTimeFieldsToTime_eq (h : ¬Rejected f) :
    rtlTimeFieldsToTime f=some ((exactTime f).bmod (2^64)) := by
  have hyear : 1≤f.year := by
    simp only [Rejected,not_or,not_lt,gt_iff_lt] at h
    omega
  rw [rtlTimeFieldsToTime,if_neg h,daysSinceEpoch_eq hyear]
  rfl

theorem exactTime_nonneg (h : ¬Rejected f) : 0≤exactTime f := by
  simp only [Rejected,not_or,not_lt,gt_iff_lt] at h
  have hday := daysBefore_add (y := f.year) (m := f.month) (d := f.day) (by omega) (by omega)
  have hfirst := newYear_mono (y := 1601) (z := f.year) (by omega)
  have hzero : newYear 1601=0 := by decide
  simp only [exactTime,ticks,dayNumber,secsPerDay,ticksPerSec,ticksPerMsec]
  omega

/-- Every time from the epoch on is a valid date, a time of day and less than a millisecond. -/
theorem exists_fields {time : Int} (h : 0≤time) : ∃ f, ¬Rejected f ∧
    time=exactTime f+time%ticksPerMsec ∧ dayNumber f=time/(secsPerDay*ticksPerSec) := by
  obtain ⟨y,d,hy,h0,hd,hn⟩ := exists_year (time/(secsPerDay*ticksPerSec)).toNat
  have hsum : (monthLengths (isLeapYear y)).sum=yearLengths (isLeapYear y) := by
    cases isLeapYear y <;> rfl
  obtain ⟨k,hk,e,he0,he,hsum⟩ := exists_month h0 (hsum ▸ hd)
  have hlength : (monthLengths (isLeapYear y)).length=12 := rfl
  have hmonth : ((k:Int)+1-1).toNat=k := by omega
  simp only [secsPerDay,ticksPerSec,ticksPerMsec] at *
  refine ⟨⟨y,k+1,e+1,time/36000000000%24,time/600000000%60,time/10000000%60,
    time/10000%1000,0⟩,?_,?_,?_⟩
  · simp only [Rejected,monthLength,hmonth]
    omega
  · simp only [exactTime,ticks,dayNumber,daysBefore,hmonth,secsPerDay,ticksPerSec,ticksPerMsec]
    omega
  · simp only [dayNumber,daysBefore,hmonth]
    omega

theorem rtlTimeFieldsToTime_rtlTimeToTimeFields {time : Int} (h0 : 0≤time) (h : time<2^63) :
    rtlTimeFieldsToTime (rtlTimeToTimeFields time)=some (time-time%ticksPerMsec) ∧
      ¬Rejected (rtlTimeToTimeFields time) ∧
      dayNumber (rtlTimeToTimeFields time)=time/(secsPerDay*ticksPerSec) ∧
      (rtlTimeToTimeFields time).weekday=(time/(secsPerDay*ticksPerSec)+1)%7 := by
  obtain ⟨f,hf,htime,hnumber⟩ := exists_fields h0
  have hr0 : 0≤time%ticksPerMsec := Int.emod_nonneg _ (by decide)
  have hfields := rtlTimeToTimeFields_eq hf hr0 (Int.emod_lt_of_pos _ (by decide))
  have hnonneg := exactTime_nonneg hf
  rw [← htime] at hfields
  rw [hfields]
  refine ⟨?_,hf,hnumber,congrArg (fun d => (d+1)%7) hnumber⟩
  have hback : rtlTimeFieldsToTime f=some (time-time%ticksPerMsec) := by
    rw [rtlTimeFieldsToTime_eq hf,Int.bmod_eq_of_le (by omega) (by omega)]
    exact congrArg some (by omega)
  exact hback

def ConvertsBack (f : TimeFields) (time : Int) : Prop :=
  time=exactTime f ∧ { rtlTimeToTimeFields time with weekday := f.weekday }=f

theorem convertsBack_iff {time : Int} (h : rtlTimeFieldsToTime f=some time) :
    ConvertsBack f time ↔ exactTime f<2^63 := by
  have hf : ¬Rejected f := by
    intro hr
    rw [rtlTimeFieldsToTime,if_pos hr] at h
    cases h
  rw [rtlTimeFieldsToTime_eq hf,Option.some_inj] at h
  constructor
  · intro hback
    have hlt := Int.bmod_lt (x := exactTime f) (m := 2^64) (by decide)
    rw [h,hback.1] at hlt
    exact hlt
  · intro hlt
    have hnonneg := exactTime_nonneg hf
    rw [Int.bmod_eq_of_le (by omega) (by omega)] at h
    have hfields := rtlTimeToTimeFields_eq hf le_rfl (by decide)
    rw [add_zero,h] at hfields
    exact ⟨h.symm,by rw [hfields]⟩

/-- The last millisecond of a leap day. -/
theorem convertsBack_leapDay :
    rtlTimeFieldsToTime ⟨2000,2,29,23,59,59,999,2⟩=some 125963423999990000 ∧
      ConvertsBack ⟨2000,2,29,23,59,59,999,2⟩ 125963423999990000 :=
  ⟨by decide,(convertsBack_iff (by decide)).2 (by decide)⟩

theorem not_convertsBack_late : ∃ time, rtlTimeFieldsToTime ⟨32767,1,1,0,0,0,0,0⟩=some time ∧
    ¬ConvertsBack ⟨32767,1,1,0,0,0,0,0⟩ time :=
  ⟨-8611705065709551616,by decide,fun h => absurd h.1 (by decide)⟩

theorem rtlTimeFieldsToTime_now : rtlTimeFieldsToTime (rtlTimeToTimeFields 129067776001234567) =
    some 129067776001230000 :=
  (rtlTimeFieldsToTime_rtlTimeToTimeFields (by decide) (by decide)).1

end Fields

end Odyssey.Rtl.Time
