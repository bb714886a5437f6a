import Componentry.Text.Bytes
import Componentry.Text.Scan

/-!
# Character references

Named references of markup, with the characters they stand for, and numeric ones. Of several names
that a text starts with, the longest counts.
-/

namespace Componentry.Markup

open Text

/-- Names in the order of the codes they stand for. A number sign comes before a code in hexadecimal, that
of the next word; every other word goes on with the code after the last one. It has names with commas
between them, or is a dash if the code has no name. In a text a semicolon follows the name, but names
with a star may go without it. -/
def referenceTable : String :=
  "#9 Tab NewLine #21 excl QUOT*,quot* num dollar percnt AMP*,amp* apos lpar rpar ast,midast plus
 comma - period sol #3A colon semi LT*,lt* equals GT*,gt* quest commat #5B lbrack,lsqb bsol
 rbrack,rsqb Hat UnderBar,lowbar DiacriticalGrave,grave #7B lbrace,lcub VerticalLine,verbar,vert
 rbrace,rcub #A0 NonBreakingSpace,nbsp* iexcl* cent* pound* curren* yen* brvbar* sect*
 Dot,DoubleDot,die,uml* COPY*,copy* ordf* laquo* not* shy* REG*,circledR,reg* macr*,strns deg*
 PlusMinus,plusmn*,pm sup2* sup3* DiacriticalAcute,acute* micro* para*
 CenterDot,centerdot,middot* Cedilla,cedil* sup1* ordm* raquo* frac14* frac12*,half frac34*
 iquest* Agrave* Aacute* Acirc* Atilde* Auml* Aring*,angst AElig* Ccedil* Egrave* Eacute* Ecirc*
 Euml* Igrave* Iacute* Icirc* Iuml* ETH* Ntilde* Ograve* Oacute* Ocirc* Otilde* Ouml* times*
 Oslash* Ugrave* Uacute* Ucirc* Uuml* Yacute* THORN* szlig* agrave* aacute* acirc* atilde* auml*
 aring* aelig* ccedil* egrave* eacute* ecirc* euml* igrave* iacute* icirc* iuml* eth* ntilde*
 ograve* oacute* ocirc* otilde* ouml* div,divide* oslash* ugrave* uacute* ucirc* uuml* yacute*
 thorn* yuml* Amacr amacr Abreve abreve Aogon aogon Cacute cacute Ccirc ccirc Cdot cdot Ccaron
 ccaron Dcaron dcaron Dstrok dstrok Emacr emacr - - Edot edot Eogon eogon Ecaron ecaron Gcirc
 gcirc Gbreve gbreve Gdot gdot Gcedil - Hcirc hcirc Hstrok hstrok Itilde itilde Imacr imacr - -
 Iogon iogon Idot imath,inodot IJlig ijlig Jcirc jcirc Kcedil kcedil kgreen Lacute lacute Lcedil
 lcedil Lcaron lcaron Lmidot lmidot Lstrok lstrok Nacute nacute Ncedil ncedil Ncaron ncaron napos
 ENG eng Omacr omacr - - Odblac odblac OElig oelig Racute racute Rcedil rcedil Rcaron rcaron
 Sacute sacute Scirc scirc Scedil scedil Scaron scaron Tcedil tcedil Tcaron tcaron Tstrok tstrok
 Utilde utilde Umacr umacr Ubreve ubreve Uring uring Udblac udblac Uogon uogon Wcirc wcirc Ycirc
 ycirc Yuml Zacute zacute Zdot zdot Zcaron zcaron #192 fnof #1B5 imped #1F5 gacute #237 jmath
 #2C6 circ Hacek,caron #2D8 Breve,breve DiacriticalDot,dot ring ogon DiacriticalTilde,tilde
 DiacriticalDoubleAcute,dblac #311 DownBreve #391 Alpha Beta Gamma Delta Epsilon Zeta Eta Theta
 Iota Kappa Lambda Mu Nu Xi Omicron Pi Rho - Sigma Tau Upsilon Phi Chi Psi Omega,ohm #3B1 alpha
 beta gamma delta epsi,epsilon zeta eta theta iota kappa lambda mu nu xi omicron pi rho
 sigmaf,sigmav,varsigma sigma tau upsi,upsilon phi chi psi omega #3D1 thetasym,thetav,vartheta
 Upsi,upsih - - phiv,straightphi,varphi piv,varpi #3DC Gammad digamma,gammad #3F0 kappav,varkappa
 rhov,varrho #3F5 epsiv,straightepsilon,varepsilon backepsilon,bepsi #401 IOcy DJcy GJcy Jukcy
 DScy Iukcy YIcy Jsercy LJcy NJcy TSHcy KJcy - Ubrcy DZcy Acy Bcy Vcy Gcy Dcy IEcy ZHcy Zcy Icy
 Jcy Kcy Lcy Mcy Ncy Ocy Pcy Rcy Scy Tcy Ucy Fcy KHcy TScy CHcy SHcy SHCHcy HARDcy Ycy SOFTcy Ecy
 YUcy YAcy acy bcy vcy gcy dcy iecy zhcy zcy icy jcy kcy lcy mcy ncy ocy pcy rcy scy tcy ucy fcy
 khcy tscy chcy shcy shchcy hardcy ycy softcy ecy yucy yacy - iocy djcy gjcy jukcy dscy iukcy
 yicy jsercy ljcy njcy tshcy kjcy - ubrcy dzcy #2002 ensp emsp emsp13 emsp14 - numsp puncsp
 ThinSpace,thinsp VeryThinSpace,hairsp
 NegativeMediumSpace,NegativeThickSpace,NegativeThinSpace,NegativeVeryThinSpace,ZeroWidthSpace
 zwnj zwj lrm rlm dash,hyphen - - ndash mdash horbar Verbar,Vert - OpenCurlyQuote,lsquo
 CloseCurlyQuote,rsquo,rsquor lsquor,sbquo - OpenCurlyDoubleQuote,ldquo
 CloseCurlyDoubleQuote,rdquo,rdquor bdquo,ldquor - dagger Dagger,ddagger bull,bullet - - nldr
 hellip,mldr #2030 permil pertenk prime Prime tprime backprime,bprime #2039 lsaquo rsaquo #203E
 OverBar,oline - - caret - hybull frasl #204F bsemi #2057 qprime #205F MediumSpace NoBreak
 ApplyFunction,af InvisibleTimes,it InvisibleComma,ic #20AC euro #20DB TripleDot,tdot DotDot
 #2102 Copf,complexes - - incare #210A gscr HilbertSpace,Hscr,hamilt Hfr,Poincareplane
 Hopf,quaternions planckh hbar,hslash,planck,plankv Iscr,imagline Ifr,Im,image,imagpart
 Laplacetrf,Lscr,lagran ell - Nopf,naturals numero copysr weierp,wp Popf,primes Qopf,rationals
 Rscr,realine Re,Rfr,real,realpart Ropf,reals rx #2122 TRADE,trade - Zopf,integers - - mho
 Zfr,zeetrf iiota - - Bernoullis,Bscr,bernou Cayleys,Cfr - escr Escr,expectation Fouriertrf,Fscr
 - Mellintrf,Mscr,phmmat order,orderof,oscr alefsym,aleph beth gimel daleth #2145
 CapitalDifferentialD,DD DifferentialD,dd ExponentialE,ee,exponentiale ImaginaryI,ii #2153 frac13
 frac23 frac15 frac25 frac35 frac45 frac16 frac56 frac18 frac38 frac58 frac78 #2190
 LeftArrow,ShortLeftArrow,larr,leftarrow,slarr ShortUpArrow,UpArrow,uarr,uparrow
 RightArrow,ShortRightArrow,rarr,rightarrow,srarr DownArrow,ShortDownArrow,darr,downarrow
 LeftRightArrow,harr,leftrightarrow UpDownArrow,updownarrow,varr UpperLeftArrow,nwarr,nwarrow
 UpperRightArrow,nearr,nearrow LowerRightArrow,searr,searrow LowerLeftArrow,swarr,swarrow
 nlarr,nleftarrow nrarr,nrightarrow - rarrw,rightsquigarrow Larr,twoheadleftarrow Uarr
 Rarr,twoheadrightarrow Darr larrtl,leftarrowtail rarrtl,rightarrowtail LeftTeeArrow,mapstoleft
 UpTeeArrow,mapstoup RightTeeArrow,map,mapsto DownTeeArrow,mapstodown - hookleftarrow,larrhk
 hookrightarrow,rarrhk larrlp,looparrowleft looparrowright,rarrlp harrw,leftrightsquigarrow
 nharr,nleftrightarrow - Lsh,lsh Rsh,rsh ldsh rdsh - crarr cularr,curvearrowleft
 curarr,curvearrowright - - circlearrowleft,olarr circlearrowright,orarr
 LeftVector,leftharpoonup,lharu DownLeftVector,leftharpoondown,lhard
 RightUpVector,uharr,upharpoonright LeftUpVector,uharl,upharpoonleft
 RightVector,rharu,rightharpoonup DownRightVector,rhard,rightharpoondown
 RightDownVector,dharr,downharpoonright LeftDownVector,dharl,downharpoonleft
 RightArrowLeftArrow,rightleftarrows,rlarr UpArrowDownArrow,udarr
 LeftArrowRightArrow,leftrightarrows,lrarr leftleftarrows,llarr upuparrows,uuarr
 rightrightarrows,rrarr ddarr,downdownarrows ReverseEquilibrium,leftrightharpoons,lrhar
 Equilibrium,rightleftharpoons,rlhar nLeftarrow,nlArr nLeftrightarrow,nhArr nRightarrow,nrArr
 DoubleLeftArrow,Leftarrow,lArr DoubleUpArrow,Uparrow,uArr
 DoubleRightArrow,Implies,Rightarrow,rArr DoubleDownArrow,Downarrow,dArr
 DoubleLeftRightArrow,Leftrightarrow,hArr,iff DoubleUpDownArrow,Updownarrow,vArr nwArr neArr
 seArr swArr Lleftarrow,lAarr Rrightarrow,rAarr - zigrarr #21E4 LeftArrowBar,larrb
 RightArrowBar,rarrb #21F5 DownArrowUpArrow,duarr #21FD loarr roarr hoarr ForAll,forall
 comp,complement PartialD,part Exists,exist NotExists,nexist,nexists
 empty,emptyset,emptyv,varnothing - Del,nabla Element,in,isin,isinv NotElement,notin,notinva -
 ReverseElement,SuchThat,ni,niv NotReverseElement,notni,notniva - - Product,prod Coproduct,coprod
 Sum,sum minus MinusPlus,mnplus,mp dotplus,plusdo - Backslash,setminus,setmn,smallsetminus,ssetmn
 lowast SmallCircle,compfn - Sqrt,radic - - Proportional,prop,propto,varpropto,vprop infin angrt
 ang,angle angmsd,measuredangle angsph VerticalBar,mid,shortmid,smid
 NotVerticalBar,nmid,nshortmid,nsmid DoubleVerticalBar,par,parallel,shortparallel,spar
 NotDoubleVerticalBar,npar,nparallel,nshortparallel,nspar and,wedge or,vee cap cup Integral,int
 Int iiint,tint ContourIntegral,conint,oint Conint,DoubleContourIntegral Cconint cwint
 ClockwiseContourIntegral,cwconint CounterClockwiseContourIntegral,awconint
 Therefore,there4,therefore Because,becaus,because ratio Colon,Proportion dotminus,minusd - mDDot
 homtht Tilde,sim,thicksim,thksim backsim,bsim ac,mstpos acd VerticalTilde,wr,wreath
 NotTilde,nsim EqualTilde,eqsim,esim TildeEqual,sime,simeq NotTildeEqual,nsime,nsimeq
 TildeFullEqual,cong simne NotTildeFullEqual,ncong TildeTilde,ap,approx,asymp,thickapprox,thkap
 NotTildeTilde,nap,napprox ape,approxeq apid backcong,bcong CupCap,asympeq
 Bumpeq,HumpDownHump,bump HumpEqual,bumpe,bumpeq DotEqual,doteq,esdot doteqdot,eDot
 efDot,fallingdotseq erDot,risingdotseq Assign,colone,coloneq ecolon,eqcolon ecir,eqcirc
 circeq,cire - wedgeq veeeq - triangleq,trie - - equest,questeq NotEqual,ne Congruent,equiv
 NotCongruent,nequiv - le,leq GreaterEqual,ge,geq LessFullEqual,lE,leqq GreaterFullEqual,gE,geqq
 lnE,lneqq gnE,gneqq Lt,NestedLessLess,ll Gt,NestedGreaterGreater,gg between,twixt NotCupCap
 NotLess,nless,nlt NotGreater,ngt,ngtr NotLessEqual,nle,nleq NotGreaterEqual,nge,ngeq
 LessTilde,lesssim,lsim GreaterTilde,gsim,gtrsim NotLessTilde,nlsim NotGreaterTilde,ngsim
 LessGreater,lessgtr,lg GreaterLess,gl,gtrless NotLessGreater,ntlg NotGreaterLess,ntgl
 Precedes,pr,prec Succeeds,sc,succ PrecedesSlantEqual,prcue,preccurlyeq
 SucceedsSlantEqual,sccue,succcurlyeq PrecedesTilde,precsim,prsim SucceedsTilde,scsim,succsim
 NotPrecedes,npr,nprec NotSucceeds,nsc,nsucc sub,subset Superset,sup,supset nsub nsup
 SubsetEqual,sube,subseteq SupersetEqual,supe,supseteq NotSubsetEqual,nsube,nsubseteq
 NotSupersetEqual,nsupe,nsupseteq subne,subsetneq supne,supsetneq - cupdot UnionPlus,uplus
 SquareSubset,sqsub,sqsubset SquareSuperset,sqsup,sqsupset SquareSubsetEqual,sqsube,sqsubseteq
 SquareSupersetEqual,sqsupe,sqsupseteq SquareIntersection,sqcap SquareUnion,sqcup
 CirclePlus,oplus CircleMinus,ominus CircleTimes,otimes osol CircleDot,odot circledcirc,ocir
 circledast,oast - circleddash,odash boxplus,plusb boxminus,minusb boxtimes,timesb
 dotsquare,sdotb RightTee,vdash LeftTee,dashv DownTee,top UpTee,bot,bottom,perp - models
 DoubleRightTee,vDash Vdash Vvdash VDash nvdash nvDash nVdash nVDash prurel -
 LeftTriangle,vartriangleleft,vltri RightTriangle,vartriangleright,vrtri
 LeftTriangleEqual,ltrie,trianglelefteq RightTriangleEqual,rtrie,trianglerighteq origof imof
 multimap,mumap hercon intcal,intercal veebar - barvee angrtvb lrtri Wedge,bigwedge,xwedge
 Vee,bigvee,xvee Intersection,bigcap,xcap Union,bigcup,xcup Diamond,diam,diamond sdot Star,sstarf
 divideontimes,divonx bowtie ltimes rtimes leftthreetimes,lthree rightthreetimes,rthree
 backsimeq,bsime curlyvee,cuvee curlywedge,cuwed Sub,Subset Sup,Supset Cap Cup fork,pitchfork
 epar lessdot,ltdot gtdot,gtrdot Ll Gg,ggg LessEqualGreater,leg,lesseqgtr
 GreaterEqualLess,gel,gtreqless - - cuepr,curlyeqprec cuesc,curlyeqsucc
 NotPrecedesSlantEqual,nprcue NotSucceedsSlantEqual,nsccue NotSquareSubsetEqual,nsqsube
 NotSquareSupersetEqual,nsqsupe - - lnsim gnsim precnsim,prnsim scnsim,succnsim
 NotLeftTriangle,nltri,ntriangleleft NotRightTriangle,nrtri,ntriangleright
 NotLeftTriangleEqual,nltrie,ntrianglelefteq NotRightTriangleEqual,nrtrie,ntrianglerighteq vellip
 ctdot utdot dtdot disin isinsv isins isindot notinvc notinvb - isinE nisd xnis nis notnivc
 notnivb #2305 barwed,barwedge Barwed,doublebarwedge - LeftCeiling,lceil RightCeiling,rceil
 LeftFloor,lfloor RightFloor,rfloor drcrop dlcrop urcrop ulcrop bnot - profline profsurf - telrec
 target #231C ulcorn,ulcorner urcorn,urcorner dlcorn,llcorner drcorn,lrcorner - - frown,sfrown
 smile,ssmile #232D cylcty profalar #2336 topbot #233D ovbar - solbar #237C angzarr #23B0
 lmoust,lmoustache rmoust,rmoustache - - OverBracket,tbrk UnderBracket,bbrk bbrktbrk #23DC
 OverParenthesis UnderParenthesis OverBrace UnderBrace - - trpezium #23E7 elinters #2423 blank
 #24C8 circledS,oS #2500 HorizontalLine,boxh - boxv #250C boxdr #2510 boxdl #2514 boxur #2518
 boxul #251C boxvr #2524 boxvl #252C boxhd #2534 boxhu #253C boxvh #2550 boxH boxV boxdR boxDr
 boxDR boxdL boxDl boxDL boxuR boxUr boxUR boxuL boxUl boxUL boxvR boxVr boxVR boxvL boxVl boxVL
 boxHd boxhD boxHD boxHu boxhU boxHU boxvH boxVh boxVH #2580 uhblk #2584 lhblk #2588 block #2591
 blk14 blk12 blk34 #25A1 Square,squ,square #25AA FilledVerySmallSquare,blacksquare,squarf,squf
 EmptyVerySmallSquare - rect marker - - fltns - bigtriangleup,xutri blacktriangle,utrif
 triangle,utri - - blacktriangleright,rtrif rtri,triangleright #25BD bigtriangledown,xdtri
 blacktriangledown,dtrif dtri,triangledown - - blacktriangleleft,ltrif ltri,triangleleft #25CA
 loz,lozenge cir #25EC tridot - - bigcirc,xcirc #25F8 ultri urtri lltri EmptySmallSquare
 FilledSmallSquare #2605 bigstar,starf star #260E phone #2640 female - male #2660
 spades,spadesuit - - clubs,clubsuit - hearts,heartsuit diamondsuit,diams #266A sung - - flat
 natur,natural sharp #2713 check,checkmark #2717 cross #2720 malt,maltese #2736 sext #2758
 VerticalSeparator #2772 lbbrk rbbrk #27C8 bsolhsub suphsol #27E6 LeftDoubleBracket,lobrk
 RightDoubleBracket,robrk LeftAngleBracket,lang,langle RightAngleBracket,rang,rangle Lang Rang
 loang roang #27F5 LongLeftArrow,longleftarrow,xlarr LongRightArrow,longrightarrow,xrarr
 LongLeftRightArrow,longleftrightarrow,xharr DoubleLongLeftArrow,Longleftarrow,xlArr
 DoubleLongRightArrow,Longrightarrow,xrArr DoubleLongLeftRightArrow,Longleftrightarrow,xhArr -
 longmapsto,xmap - - dzigrarr #2902 nvlArr nvrArr nvHarr Map #290C lbarr bkarow,rbarr lBarr
 dbkarow,rBarr RBarr,drbkarow DDotrahd UpArrowBar DownArrowBar - - Rarrtl - - latail ratail
 lAtail rAtail larrfs rarrfs larrbfs rarrbfs - - nwarhk nearhk hksearow,searhk hkswarow,swarhk
 nwnear nesear,toea seswar,tosa swnwar #2933 rarrc - cudarrr ldca rdca cudarrl larrpl - - curarrm
 cularrp #2945 rarrpl - - harrcir Uarrocir lurdshar ldrushar - - LeftRightVector
 RightUpDownVector DownLeftRightVector LeftUpDownVector LeftVectorBar RightVectorBar
 RightUpVectorBar RightDownVectorBar DownLeftVectorBar DownRightVectorBar LeftUpVectorBar
 LeftDownVectorBar LeftTeeVector RightTeeVector RightUpTeeVector RightDownTeeVector
 DownLeftTeeVector DownRightTeeVector LeftUpTeeVector LeftDownTeeVector lHar uHar rHar dHar
 luruhar ldrdhar ruluhar rdldhar lharul llhard rharul lrhard UpEquilibrium,udhar
 ReverseUpEquilibrium,duhar RoundImplies erarr simrarr larrsim rarrsim rarrap ltlarr - gtrarr
 subrarr - suplarr lfisht rfisht ufisht dfisht #2985 lopar ropar #298B lbrke rbrke lbrkslu
 rbrksld lbrksld rbrkslu langd rangd lparlt rpargt gtlPar ltrPar #299A vzigzag - vangrt angrtvbd
 #29A4 ange range dwangle uwangle angmsdaa angmsdab angmsdac angmsdad angmsdae angmsdaf angmsdag
 angmsdah bemptyv demptyv cemptyv raemptyv laemptyv ohbar omid opar - operp - olcross odsold -
 olcir ofcir olt ogt cirscir cirE solb bsolb #29C9 boxbox #29CD trisb rtriltri LeftTriangleBar
 RightTriangleBar #29DC iinfin infintie nvinfin #29E3 eparsl smeparsl eqvparsl #29EB
 blacklozenge,lozf #29F4 RuleDelayed - dsol #2A00 bigodot,xodot bigoplus,xoplus bigotimes,xotime
 - biguplus,xuplus - bigsqcup,xsqcup #2A0C iiiint,qint fpartint - - cirfnint awint rppolint
 scpolint npolint pointint quatint intlarhk #2A22 pluscir plusacir simplus plusdu plussim plustwo
 - mcomma minusdu - - loplus roplus Cross timesd timesbar - smashp lotimes rotimes otimesas
 Otimes odiv triplus triminus tritime intprod,iprod - - amalg capdot - ncup ncap capand cupor
 cupcap capcup cupbrcap capbrcup cupcup capcap ccups ccaps - - ccupssm - - And Or andand oror
 orslope andslope - andv orv andd ord - wedbar #2A66 sdote #2A6A simdot - - congdot easter apacir
 apE eplus pluse Esim Colone Equal - ddotseq,eDDot equivDD ltcir gtcir ltquest gtquest
 LessSlantEqual,leqslant,les GreaterSlantEqual,geqslant,ges lesdot gesdot lesdoto gesdoto
 lesdotor gesdotol lap,lessapprox gap,gtrapprox lne,lneq gne,gneq lnap,lnapprox gnap,gnapprox
 lEg,lesseqqgtr gEl,gtreqqless lsime gsime lsimg gsiml lgE glE lesges gesles els,eqslantless
 egs,eqslantgtr elsdot egsdot el eg - - siml simg simlE simgE LessLess GreaterGreater - glj gla
 ltcc gtcc lescc gescc smt lat smte late bumpE PrecedesEqual,pre,preceq SucceedsEqual,sce,succeq
 - - prE scE precneqq,prnE scnE,succneqq prap,precapprox scap,succapprox precnapprox,prnap
 scnap,succnapprox Pr Sc subdot supdot subplus supplus submult supmult subedot supedot
 subE,subseteqq supE,supseteqq subsim supsim - - subnE,subsetneqq supnE,supsetneqq - - csub csup
 csube csupe subsup supsub subsub supsup suphsub supdsub forkv topfork mlcp #2AE4
 Dashv,DoubleLeftTee - Vdashl Barv vBar vBarv - Vbar Not bNot rnmid cirmid midcir topcir nhpar
 parsim #2AFD parsl #FB00 fflig filig fllig ffilig ffllig #1D49C Ascr - Cscr Dscr - - Gscr - -
 Jscr Kscr - - Nscr Oscr Pscr Qscr - Sscr Tscr Uscr Vscr Wscr Xscr Yscr Zscr ascr bscr cscr dscr
 - fscr - hscr iscr jscr kscr lscr mscr nscr - pscr qscr rscr sscr tscr uscr vscr wscr xscr yscr
 zscr #1D504 Afr Bfr - Dfr Efr Ffr Gfr - - Jfr Kfr Lfr Mfr Nfr Ofr Pfr Qfr - Sfr Tfr Ufr Vfr Wfr
 Xfr Yfr - afr bfr cfr dfr efr ffr gfr hfr ifr jfr kfr lfr mfr nfr ofr pfr qfr rfr sfr tfr ufr
 vfr wfr xfr yfr zfr Aopf Bopf - Dopf Eopf Fopf Gopf - Iopf Jopf Kopf Lopf Mopf - Oopf #1D54A
 Sopf Topf Uopf Vopf Wopf Xopf Yopf - aopf bopf copf dopf eopf fopf gopf hopf iopf jopf kopf lopf
 mopf nopf oopf popf qopf ropf sopf topf uopf vopf wopf xopf yopf zopf"

/-- Names that stand for several characters: names, an equals sign, and codes in hexadecimal, with
commas between names and between codes. -/
def sequenceTable : String :=
  "NotEqualTilde,nesim=2242,338 NotGreaterFullEqual,ngE,ngeqq=2267,338
 NotGreaterGreater,nGtv=226B,338 NotGreaterSlantEqual,ngeqslant,nges=2A7E,338
 NotHumpDownHump,nbump=224E,338 NotHumpEqual,nbumpe=224F,338 NotLeftTriangleBar=29CF,338
 NotLessLess,nLtv=226A,338 NotLessSlantEqual,nleqslant,nles=2A7D,338
 NotNestedGreaterGreater=2AA2,338 NotNestedLessLess=2AA1,338
 NotPrecedesEqual,npre,npreceq=2AAF,338 NotRightTriangleBar=29D0,338 NotSquareSubset=228F,338
 NotSquareSuperset=2290,338 NotSubset,nsubset,vnsub=2282,20D2
 NotSucceedsEqual,nsce,nsucceq=2AB0,338 NotSucceedsTilde=227F,338
 NotSuperset,nsupset,vnsup=2283,20D2 ThickSpace=205F,200A acE=223E,333 bne=3D,20E5
 bnequiv=2261,20E5 caps=2229,FE00 cups=222A,FE00 fjlig=66,6A gesl=22DB,FE00
 gvertneqq,gvnE=2269,FE00 lates=2AAD,FE00 lesg=22DA,FE00 lvertneqq,lvnE=2268,FE00 nGg=22D9,338
 nGt=226B,20D2 nLl=22D8,338 nLt=226A,20D2 nang=2220,20D2 napE=2A70,338 napid=224B,338
 ncongdot=2A6D,338 nedot=2250,338 nlE,nleqq=2266,338 notinE=22F9,338 notindot=22F5,338
 nparsl=2AFD,20E5 npart=2202,338 nrarrc=2933,338 nrarrw=219D,338 nsubE,nsubseteqq=2AC5,338
 nsupE,nsupseteqq=2AC6,338 nvap=224D,20D2 nvge=2265,20D2 nvgt=3E,20D2 nvle=2264,20D2 nvlt=3C,20D2
 nvltrie=22B4,20D2 nvrtrie=22B5,20D2 nvsim=223C,20D2 race=223D,331 smtes=2AAC,FE00
 sqcaps=2293,FE00 sqcups=2294,FE00 varsubsetneq,vsubne=228A,FE00 varsubsetneqq,vsubnE=2ACB,FE00
 varsupsetneq,vsupne=228B,FE00 varsupsetneqq,vsupnE=2ACC,FE00"

def codeOf (digits : List Char) : Nat :=
  digits.foldl (fun v c => v * 16 + (hexValue? c).getD 0) 0

def entriesOf (names chars : List Char) : List (List Char × List Char) :=
  (splitOn ',' names).flatMap fun mark =>
    let name := mark.takeWhile (· != '*')
    (name ++ [';'], chars) :: if mark.length == name.length then [] else [(name, chars)]

def entriesFrom : Nat → List (List Char) → List (List Char × List Char)
  | _, [] => []
  | _, ('#' :: digits) :: words => entriesFrom (codeOf digits) words
  | code, ['-'] :: words => entriesFrom (code + 1) words
  | code, names :: words =>
    entriesOf names [charOrReplacement code] ++ entriesFrom (code + 1) words

def sequenceEntries (word : List Char) : List (List Char × List Char) :=
  let names := word.takeWhile (· != '=')
  let codes := splitOn ',' (word.drop (names.length + 1))
  entriesOf names (codes.map fun digits => charOrReplacement (codeOf digits))

def references : List (List Char × List Char) :=
  entriesFrom 0 (words referenceTable.toList) ++
    (words sequenceTable.toList).flatMap sequenceEntries

/-- The longest name that a text starts with, and what it stands for. -/
def longestReference (s : List Char) : Option (List Char × List Char) :=
  references.foldl (fun best e =>
    if startsWith e.1 s && best.all fun b => b.1.length < e.1.length then some e else best) none

def controlCodes : List Nat :=
  [0x20AC, 0x81, 0x201A, 0x0192, 0x201E, 0x2026, 0x2020, 0x2021, 0x02C6, 0x2030, 0x0160, 0x2039,
   0x0152, 0x8D, 0x017D, 0x8F, 0x90, 0x2018, 0x2019, 0x201C, 0x201D, 0x2022, 0x2013, 0x2014,
   0x02DC, 0x2122, 0x0161, 0x203A, 0x0153, 0x9D, 0x017E, 0x0178]

def numericChar (n : Nat) : Char :=
  if n == 0 then charOrReplacement 0xFFFD
  else if 0x80 ≤ n && n ≤ 0x9F then charOrReplacement ((controlCodes[n - 0x80]?).getD n)
  else charOrReplacement n

/-- Digits in a base, and a semicolon if it follows: the value and the characters taken. -/
def numericBody (base : Nat) (digit : Char → Option Nat) (s : List Char) : Option (Nat × Nat) :=
  let digits := s.takeWhile fun c => (digit c).isSome
  if digits.isEmpty then none
  else
    let value := digits.foldl (fun v c => v * base + (digit c).getD 0) 0
    let semicolon := (s.drop digits.length).head? == some ';'
    some (value, digits.length + (if semicolon then 1 else 0))

def decimalDigit (c : Char) : Option Nat :=
  if c.isDigit then some (c.toNat - 48) else none

/-- The reference after an ampersand: the characters it stands for, and how many it takes. In an
attribute, a name without a semicolon before a letter, digit or equals sign is plain text. -/
def referenceAt (inAttribute : Bool) (s : List Char) : Option (List Char × Nat) :=
  match s with
  | '#' :: 'x' :: rest | '#' :: 'X' :: rest =>
    (numericBody 16 hexValue? rest).map fun (v, n) => ([numericChar v], n + 2)
  | '#' :: rest => (numericBody 10 decimalDigit rest).map fun (v, n) => ([numericChar v], n + 1)
  | _ => do
    let (name, chars) ← longestReference s
    let next := (s.drop name.length).head?
    let plain := inAttribute && name.getLast? != some ';' &&
      next.any fun c => c == '=' || c.isAlphanum
    if plain then none else some (chars, name.length)

end Componentry.Markup
