import WebCrawler.Api.CrawlStatus
import WebCrawler.Api.Seeding
import WebCrawler.Cache.LruCache
import WebCrawler.Dedup.Expiry
import WebCrawler.Dedup.RedisBloom
import WebCrawler.Dedup.RedisDedup
import WebCrawler.Dedup.Sequential
import WebCrawler.Dedup.SimHashVotes
import WebCrawler.Engine.PageBudget
import WebCrawler.Engine.Scope
import WebCrawler.Engine.Stop
import WebCrawler.Engine.StoredGraph
import WebCrawler.Engine.Termination
import WebCrawler.Engine.Timing
import WebCrawler.Fetcher.Fetcher
import WebCrawler.Fleet.AtMostOnce
import WebCrawler.Fleet.Backoff
import WebCrawler.Fleet.Consumer
import WebCrawler.Fleet.Coverage
import WebCrawler.Fleet.Limits
import WebCrawler.Fleet.Refinement
import WebCrawler.Fleet.RetryProtocol
import WebCrawler.Fleet.Termination
import WebCrawler.Frontier.KafkaFrontier
import WebCrawler.Lib.Loads
import WebCrawler.Lib.Paging
import WebCrawler.Lib.Residues
import WebCrawler.Parser.HtmlParser
import WebCrawler.Pipeline.Attempts
import WebCrawler.Pipeline.Bodies
import WebCrawler.Pipeline.Concurrency
import WebCrawler.Pipeline.ConditionalGet
import WebCrawler.Pipeline.NoDeadlock
import WebCrawler.Pipeline.Recrawl
import WebCrawler.Pipeline.Reprocess
import WebCrawler.RateLimit.Acquire
import WebCrawler.RateLimit.Agreement
import WebCrawler.RateLimit.Local
import WebCrawler.RateLimit.Redis
import WebCrawler.RateLimit.Sleeps
import WebCrawler.RateLimit.Spacing
import WebCrawler.Resilience.BreakerRuns
import WebCrawler.Resilience.Budget
import WebCrawler.Resilience.DeadHost
import WebCrawler.Resilience.OpenGauge
import WebCrawler.Robots.RobotsCache
import WebCrawler.Robots.SharedMirror
import WebCrawler.Robots.SingleFlight
import WebCrawler.Scheduler.Rounds
import WebCrawler.Scheduler.StalestFirst
import WebCrawler.Sharding.Balance
import WebCrawler.Sharding.Rebalance
import WebCrawler.Storage.Browsing
import WebCrawler.Storage.Degrees
import WebCrawler.Storage.SavePage
import WebCrawler.Storage.Search
import WebCrawler.Storage.Statistics
import WebCrawler.Storage.Views
import WebCrawler.Url.Join
import WebCrawler.Url.Normalize
import WebCrawler.Url.Query
import WebCrawler.Url.Urllib
import WebCrawler.Worker
